import DerivedSignal.Proofs.Lifecycle
import DerivedSignal.Proofs.SeriesOrder

namespace DerivedSignal

open FloatOrder Transform

/-- What an evaluator is asked to do. -/
inductive Query where
  | loadGlobals (source : String)
  | bind (expression : String)
  | reset
  | checkpoint
  | restore
  | call (time value : Float) (channels : List Float)
  deriving DecidableEq

/-- A query with its answer. Only a call is answered with a reading. -/
structure Turn where
  query : Query
  reply : Attempt (Option Reading)
  deriving DecidableEq

namespace Turn

/-- The answer is not a failure, and its reading is one of those that are wanted. -/
def GoesOn (wanted : Reading → Prop) (e : Turn) : Prop :=
  ∃ reading, e.reply = .done reading ∧ ∀ v, reading = some v → wanted v

variable {wanted : Reading → Prop} {query : Query}

@[simp] theorem not_goesOn_abort (why : Breakdown) : ¬ GoesOn wanted ⟨query, .abort why⟩ := by
  rintro ⟨reading, h, -⟩
  cases h

@[simp] theorem not_goesOn_failed (e : Error) : ¬ GoesOn wanted ⟨query, .failed e⟩ := by
  rintro ⟨reading, h, -⟩
  cases h

@[simp] theorem goesOn_none : GoesOn wanted ⟨query, .done none⟩ :=
  ⟨none, rfl, by simp⟩

@[simp] theorem goesOn_some (v : Reading) : GoesOn wanted ⟨query, .done (some v)⟩ ↔ wanted v := by
  simp [GoesOn]

end Turn

/-- The turns keep to the queries of a plan, one after another, up to the first answer that does
not let them go on. -/
inductive Follows (goesOn : Turn → Prop) : List Query → List Turn → Prop
  | finished : Follows goesOn [] []
  | next {e plan turns} : goesOn e → Follows goesOn plan turns →
      Follows goesOn (e.query :: plan) (e :: turns)
  | stopped {e plan} : ¬ goesOn e → Follows goesOn (e.query :: plan) [e]

/-- An evaluator with all that it was asked. -/
structure Recorded (σ : Type) where
  evaluator : σ
  turns : List Turn

namespace Recorded

variable {σ α : Type}

/-- An evaluator that has not been asked anything. -/
def silent (s : σ) : Recorded σ := ⟨s, []⟩

/-- Keeps a query with what came of it. -/
def keep (s : Recorded σ) (query : Query) (reading : α → Option Reading)
    (result : σ × Attempt α) : Recorded σ × Attempt α :=
  (⟨result.1, s.turns ++ [⟨query, result.2.map reading⟩]⟩, result.2)

instance [Evaluator σ] : Evaluator (Recorded σ) where
  loadGlobals s source :=
    s.keep (.loadGlobals source) (fun _ => none) (Evaluator.loadGlobals s.evaluator source)
  bind s expression :=
    s.keep (.bind expression) (fun _ => none) (Evaluator.bind s.evaluator expression)
  reset s := s.keep .reset (fun _ => none) (Evaluator.reset s.evaluator)
  checkpoint s :=
    ⟨Evaluator.checkpoint s.evaluator, s.turns ++ [⟨.checkpoint, .done none⟩]⟩
  restore s := ⟨Evaluator.restore s.evaluator, s.turns ++ [⟨.restore, .done none⟩]⟩
  call s time value channels :=
    s.keep (.call time value channels) some (Evaluator.call s.evaluator time value channels)

end Recorded

variable {σ : Type}

/-- The signal without the record of its evaluator. -/
def Transform.unrecorded (t : Transform (Recorded σ)) : Transform σ :=
  ⟨t.definition, t.slotted, t.shape, t.evaluator.evaluator, t.mark, t.staged, t.replaces⟩

/-- The value of the last sample not later than `x`, NaN if there is none. -/
def Series.latest (s : Series) (x : Float) : Float :=
  ((s.points.filter fun p => p.x ≤ x).getLast?.map (·.y)).getD FloatMath.nan

/-- What compiling a definition asks. -/
def compilePlan (d : Definition) : List Query :=
  match Template.assignSlots d.expression d.linked with
  | .error _ => []
  | .ok slotted =>
    [.loadGlobals d.globals, .bind slotted.text, .call 0 1 (slotted.channels.map fun _ => 1), .reset]

/-- The calls for the linked samples later than `mark`: none if the linked series or a channel is
missing. -/
def Transform.callPlan (t : Transform σ) (r : Registry) (mark : Float) : List Query :=
  match r.find? t.definition.linked with
  | none => []
  | some linked =>
    if t.slotted.channels.all r.contains then
      (linked.points.filter fun p => mark < p.x).map fun p =>
        .call p.x p.y (t.slotted.channels.map fun name => (r.getD name).latest p.x)
    else []

/-- A result without the record of the evaluator. -/
def unrecordedResult (result : Transform (Recorded σ) × Registry × Attempt Nat) :
    Transform σ × Registry × Attempt Nat :=
  (result.1.unrecorded, result.2)

/-- A reading that has some shape. -/
def HasShape (v : Reading) : Prop := ∃ shape, OutputShape.ofReading v = .ok shape

/-- A reading that fits the outputs of a signal. -/
def Transform.Fits (t : Transform σ) (v : Reading) : Prop := ∃ ys, t.shape.extract v = .ok ys

/-- What is asked at the end of a pass. -/
def closing : Attempt Nat → List Turn
  | .failed _ => [⟨.restore, .done none⟩]
  | _ => []

/-- What a pass asks: a checkpoint, then a plan as far as the answers let it go on, which is all of it if
the pass succeeds, and at the end a restoring if and only if the pass fails. -/
def PassKeepsTo (plan : List Query) (before : Transform (Recorded σ))
    (result : Transform (Recorded σ) × Registry × Attempt Nat) : Prop :=
  ∃ asked, Follows (Turn.GoesOn before.Fits) plan asked ∧
    result.1.evaluator.turns =
      before.evaluator.turns ++ ⟨.checkpoint, .done none⟩ :: asked ++ closing result.2.2 ∧
    ∀ n, result.2.2 = .done n → asked.map (·.query) = plan

/-- A registry whose series are in ascending order. -/
def SortedRegistry (r : Registry) : Prop :=
  ∀ name s, r.find? name = some s → Ascending s.points

/-- The states of a signal after compiling, registering, and passes over sorted series. -/
inductive Reached [Evaluator σ] (d : Definition) (start : σ) : Transform σ → Prop
  | compiled {s t} : compile d start = (s, .done t) → Reached d start t
  | registered {t} (r : Registry) : Reached d start t → Reached d start (t.register r).1
  | updated {t r} : Reached d start t → SortedRegistry r → Reached d start (t.update r).1
  | rebuilt {t r} : Reached d start t → SortedRegistry r → Reached d start (t.rebuild r).1

theorem fits_of_extract {t : Transform σ} {x : Float} {v : Reading} {ys : List Float}
    (h : t.extract x v = .ok ys) : t.Fits v := by
  unfold extract at h
  split at h
  next ys' hys => exact ⟨ys', hys⟩
  next => cases h

theorem not_fits_of_extract {t : Transform σ} {x : Float} {v : Reading} {e : Error}
    (h : t.extract x v = .error e) : ¬ t.Fits v := by
  rintro ⟨ys, hys⟩
  simp [extract, hys] at h

theorem Series.latest_eq_valueAt {s : Series} (h : Ascending s.points) (x : Float) :
    s.latest x = s.valueAt x := by
  rw [Series.latest, Series.valueAt_eq h, Series.takeWhile_eq_filter h]

theorem SortedRegistry.getD {r : Registry} (h : SortedRegistry r) (name : String) :
    Ascending (r.getD name).points := by
  cases hs : r.find? name with
  | none =>
    have hempty : r.getD name = Series.empty := by simp [Registry.getD, hs]
    rw [hempty]
    exact ⟨List.Pairwise.nil, by simp [Series.empty]⟩
  | some s =>
    rw [Registry.getD_of_find? hs]
    exact h name s hs

/-- Channels are resolved if and only if all of them are there. -/
theorem Alignment.resolve_eq {r : Registry} (names : List String) :
    if names.all r.contains then resolve r names = .ok (names.map r.getD)
    else ∃ e, resolve r names = .error e := by
  induction names with
  | nil => rfl
  | cons name names ih =>
    cases hs : r.find? name with
    | none => simp [resolve, hs, NameMap.contains]
    | some s =>
      have hc : r.contains name = true := (Registry.contains_eq_true_iff r name).mpr ⟨s, hs⟩
      simp only [List.all_cons, hc, Bool.true_and, resolve, hs, List.map_cons]
      rw [Registry.getD_of_find? hs]
      split
      next hall =>
        rw [if_pos hall] at ih
        rw [ih]
        rfl
      next hall =>
        rw [if_neg hall] at ih
        obtain ⟨e, he⟩ := ih
        exact ⟨e, by rw [he]; rfl⟩

variable [Evaluator σ]

/-- The samples of a pass are called for one after another, up to the first that fails or does not
fit. -/
theorem evaluateAll_turns (t : Transform (Recorded σ)) (channels : List Series)
    (s : Recorded σ) (ps : List Point) :
    ∃ calls, (t.evaluateAll channels s ps).1.turns = s.turns ++ calls ∧
      Follows (Turn.GoesOn t.Fits)
        (ps.map fun p => .call p.x p.y (Alignment.align channels p.x)) calls ∧
      ∀ rows, (t.evaluateAll channels s ps).2 = .done rows →
        calls.map (·.query) = ps.map fun p => .call p.x p.y (Alignment.align channels p.x) := by
  induction ps generalizing s with
  | nil => exact ⟨[], by simp [evaluateAll], .finished, fun rows _ => rfl⟩
  | cons p ps ih =>
    let query : Query := .call p.x p.y (Alignment.align channels p.x)
    have hcall : Evaluator.call s p.x p.y (Alignment.align channels p.x) =
        s.keep query some (Evaluator.call s.evaluator p.x p.y (Alignment.align channels p.x)) :=
      rfl
    rw [evaluateAll_cons, hcall, List.map_cons]
    obtain ⟨e, outcome⟩ := Evaluator.call s.evaluator p.x p.y (Alignment.align channels p.x)
    cases outcome with
    | abort why =>
      refine ⟨[⟨query, .abort why⟩], rfl, .stopped (Turn.not_goesOn_abort why), ?_⟩
      intro rows hrows
      cases hrows
    | failed error =>
      refine ⟨[⟨query, .failed error⟩], rfl, .stopped (Turn.not_goesOn_failed error), ?_⟩
      intro rows hrows
      cases hrows
    | done v =>
      let answered : Turn := ⟨query, .done (some v)⟩
      simp only [Recorded.keep, Attempt.map]
      cases hv : t.extract p.x v with
      | error error =>
        have hstop : ¬ answered.GoesOn t.Fits := by
          rw [Turn.goesOn_some]
          exact not_fits_of_extract hv
        refine ⟨[answered], rfl, .stopped hstop, ?_⟩
        intro rows hrows
        cases hrows
      | ok ys =>
        have hgoes : answered.GoesOn t.Fits := (Turn.goesOn_some v).mpr (fits_of_extract hv)
        obtain ⟨calls, hcalls, hfollows, hall⟩ := ih ⟨e, s.turns ++ [answered]⟩
        rw [List.append_assoc] at hcalls
        refine ⟨answered :: calls, hcalls, .next hgoes hfollows, ?_⟩
        intro rows hrows
        have hrest : ∃ rest, (t.evaluateAll channels ⟨e, s.turns ++ [answered]⟩ ps).2 =
            .done rest := by
          cases hr : (t.evaluateAll channels ⟨e, s.turns ++ [answered]⟩ ps).2 with
          | abort why => simp [answered] at hr hrows; simp [hr] at hrows
          | failed e => simp [answered] at hr hrows; simp [hr] at hrows
          | done rest => exact ⟨rest, rfl⟩
        obtain ⟨rest, hrest⟩ := hrest
        rw [List.map_cons, hall rest hrest]

/-- A pass asks for the calls of its plan. -/
theorem evaluate_turns (t : Transform (Recorded σ)) {r : Registry} (hr : SortedRegistry r)
    {mark : Float} (hm : IsNumber mark) (s : Recorded σ) :
    ∃ calls, (t.evaluate r mark s).1.turns = s.turns ++ calls ∧
      Follows (Turn.GoesOn t.Fits) (t.callPlan r mark) calls ∧
      ∀ p, (t.evaluate r mark s).2 = .done p → calls.map (·.query) = t.callPlan r mark := by
  cases hl : r.find? t.definition.linked with
  | none =>
    have hplan : t.callPlan r mark = [] := by simp only [callPlan, hl]
    rw [evaluate_of_absent hl, hplan]
    exact ⟨[], by simp, .finished, fun p _ => rfl⟩
  | some linked =>
    have hresolve := Alignment.resolve_eq (r := r) t.slotted.channels
    split at hresolve
    next hall =>
      have hafter : linked.after mark = linked.points.filter fun p => mark < p.x := by
        rw [Series.after_eq_dropWhile (hr _ _ hl)]
        exact Series.dropWhile_eq_filter (hr _ _ hl) hm
      have halign : ∀ x, Alignment.align (t.slotted.channels.map r.getD) x =
          t.slotted.channels.map fun name => (r.getD name).latest x := by
        intro x
        simp only [Alignment.align, List.map_map, List.map_inj_left, Function.comp_apply]
        intro name _
        exact (Series.latest_eq_valueAt (hr.getD name) x).symm
      have hplan : t.callPlan r mark = (linked.after mark).map fun p =>
          .call p.x p.y (Alignment.align (t.slotted.channels.map r.getD) p.x) := by
        simp only [callPlan, hl, hall, if_true, hafter, halign]
      obtain ⟨calls, hcalls, hfollows, hdone⟩ :=
        evaluateAll_turns t (t.slotted.channels.map r.getD) s (linked.after mark)
      rw [evaluate_of_found hl hresolve, hplan]
      refine ⟨calls, hcalls, hfollows, ?_⟩
      intro p hp
      obtain ⟨rows, hrows, -⟩ := Attempt.of_map_eq_done hp
      exact hdone rows hrows
    next hall =>
      obtain ⟨e, he⟩ := hresolve
      have hplan : t.callPlan r mark = [] := by simp only [callPlan, hl, hall]; rfl
      rw [evaluate_of_unresolved hl he, hplan]
      exact ⟨[], by simp, .finished, fun p hp => by cases hp⟩

theorem done_of_finish {t : Transform σ} {r : Registry} {replace : Bool}
    {outcome : Attempt (Option Pass)} {n : Nat} (h : (t.finish r replace outcome).2.2 = .done n) :
    ∃ p, outcome = .done p := by
  cases outcome with
  | abort why => cases h
  | failed e => cases h
  | done p => exact ⟨p, rfl⟩

theorem isNumber_mark_finish {t : Transform σ} {r : Registry} (hr : SortedRegistry r)
    (ht : IsNumber t.mark) (replace : Bool) (mark : Float) (s : σ) :
    IsNumber ({ t with evaluator := (t.evaluate r mark s).1 }.finish r replace
      (t.evaluate r mark s).2).1.mark := by
  cases hl : r.find? t.definition.linked with
  | none =>
    rw [evaluate_of_absent hl]
    exact ht
  | some linked =>
    cases hc : Alignment.resolve r t.slotted.channels with
    | error e =>
      rw [evaluate_of_unresolved hl hc]
      exact ht
    | ok channels =>
      rw [evaluate_of_found hl hc]
      cases hrows : (t.evaluateAll channels s (linked.after mark)).2 with
      | abort why => exact ht
      | failed e => exact ht
      | done rows =>
        have hpass : t.evaluateAll channels s (linked.after mark) = (_, .done rows) :=
          Prod.ext rfl hrows
        simp only [Attempt.map]
        rw [finish_done, last?_of_evaluateAll hpass]
        cases hb : (linked.after mark).getLast? with
        | none => cases replace with
          | true => exact isNumber_negInfinity
          | false => exact ht
        | some back =>
          have hmem : back ∈ linked.points := by
            have hafter : back ∈ linked.after mark := List.mem_of_getLast? hb
            exact List.mem_of_mem_drop hafter
          exact (hr _ _ hl).numbers back hmem

theorem Reached.isNumber_mark {d : Definition} {start : σ} {t : Transform σ}
    (h : Reached d start t) : IsNumber t.mark := by
  induction h with
  | compiled hc =>
    rw [(compiles_of_done hc).mark]
    exact isNumber_negInfinity
  | registered r _ _ => exact isNumber_negInfinity
  | @updated t r _ hr ih => exact isNumber_mark_finish hr ih t.replaces t.mark _
  | @rebuilt t r _ hr ih =>
    unfold rebuild
    split
    next =>
      split
      next s _ => exact isNumber_mark_finish hr ih true FloatMath.negInfinity s
      next => exact ih
      next => exact ih
    next => exact ih

theorem Reached.compiled_signal {d : Definition} {start : σ} {t : Transform σ}
    (h : Reached d start t) :
    ∃ s fresh, compile d start = (s, .done fresh) ∧ SameSignal fresh t := by
  induction h with
  | @compiled s t hc => exact ⟨s, t, hc, ⟨rfl, rfl, rfl⟩⟩
  | registered r _ ih =>
    obtain ⟨s, fresh, hc, hsame⟩ := ih
    exact ⟨s, fresh, hc, hsame.trans ⟨rfl, rfl, rfl⟩⟩
  | @updated t r _ _ ih =>
    obtain ⟨s, fresh, hc, hsame⟩ := ih
    exact ⟨s, fresh, hc, hsame.trans (sameSignal_update t r)⟩
  | @rebuilt t r _ _ ih =>
    obtain ⟨s, fresh, hc, hsame⟩ := ih
    exact ⟨s, fresh, hc, hsame.trans (sameSignal_rebuild t r)⟩

theorem compile_turns (d : Definition) (e : σ) :
    Follows (Turn.GoesOn HasShape) (compilePlan d) (compile d (Recorded.silent e)).1.turns := by
  unfold compile compilePlan
  cases Template.assignSlots d.expression d.linked with
  | error error => exact .finished
  | ok slotted =>
    simp only [Evaluator.loadGlobals, Evaluator.bind, Evaluator.call, Evaluator.reset,
      Recorded.keep, Recorded.silent]
    obtain ⟨loaded, outcome⟩ := Evaluator.loadGlobals e d.globals
    cases outcome with
    | abort why => exact .stopped (Turn.not_goesOn_abort why)
    | failed error => exact .stopped (Turn.not_goesOn_failed error)
    | done _ =>
    simp only
    obtain ⟨bound, outcome⟩ := Evaluator.bind loaded slotted.text
    cases outcome with
    | abort why => exact .next Turn.goesOn_none (.stopped (Turn.not_goesOn_abort why))
    | failed error => exact .next Turn.goesOn_none (.stopped (Turn.not_goesOn_failed error))
    | done _ =>
    simp only
    obtain ⟨probed, outcome⟩ := Evaluator.call bound 0 1 (slotted.channels.map fun _ => 1)
    have hbound {plan turns} (h : Follows (Turn.GoesOn HasShape) plan turns) :
        Follows (Turn.GoesOn HasShape)
          (.loadGlobals d.globals :: .bind slotted.text :: plan) _ :=
      .next Turn.goesOn_none (.next Turn.goesOn_none h)
    cases outcome with
    | abort why => exact hbound (.stopped (Turn.not_goesOn_abort why))
    | failed error => exact hbound (.stopped (Turn.not_goesOn_failed error))
    | done v =>
    simp only
    cases hshape : OutputShape.ofReading v with
    | error error =>
      have hstop : ¬ HasShape v := by
        rintro ⟨shape, hs⟩
        cases hshape.symm.trans hs
      exact hbound (.stopped ((Turn.goesOn_some v).not.mpr hstop))
    | ok shape =>
      have hprobed : HasShape v := ⟨shape, hshape⟩
      simp only
      obtain ⟨fresh, outcome⟩ := Evaluator.reset probed
      cases outcome with
      | abort why =>
        exact hbound (.next ((Turn.goesOn_some v).mpr hprobed) (.stopped (Turn.not_goesOn_abort why)))
      | failed error =>
        exact hbound (.next ((Turn.goesOn_some v).mpr hprobed)
          (.stopped (Turn.not_goesOn_failed error)))
      | done _ =>
        exact hbound (.next ((Turn.goesOn_some v).mpr hprobed)
          (.next Turn.goesOn_none .finished))

theorem passKeepsTo_finish {t : Transform (Recorded σ)} {s : Recorded σ} {plan : List Query}
    {asked : List Turn} (hs : s.turns = t.evaluator.turns ++ ⟨.checkpoint, .done none⟩ :: asked)
    (hfollows : Follows (Turn.GoesOn t.Fits) plan asked) (outcome : Attempt (Option Pass))
    (hdone : ∀ p, outcome = .done p → asked.map (·.query) = plan) (r : Registry) (replace : Bool) :
    PassKeepsTo plan t ({ t with evaluator := s }.finish r replace outcome) := by
  refine ⟨asked, hfollows, ?_, fun n hn => ?_⟩
  · rw [← hs]
    cases outcome with
    | abort why => exact (List.append_nil s.turns).symm
    | failed e => rfl
    | done p => cases p <;> exact (List.append_nil s.turns).symm
  · obtain ⟨p, hp⟩ := done_of_finish hn
    exact hdone p hp

theorem checkpoint_turns (s : Recorded σ) :
    (Evaluator.checkpoint s).turns = s.turns ++ [⟨.checkpoint, .done none⟩] :=
  rfl

theorem passKeepsTo_update (t : Transform (Recorded σ)) {r : Registry} (hr : SortedRegistry r)
    (hm : IsNumber t.mark) : PassKeepsTo (t.callPlan r t.mark) t (t.update r) := by
  obtain ⟨calls, hcalls, hfollows, hdone⟩ :=
    evaluate_turns t hr hm (Evaluator.checkpoint t.evaluator)
  rw [checkpoint_turns, List.append_assoc] at hcalls
  exact passKeepsTo_finish hcalls hfollows _ hdone r t.replaces

theorem passKeepsTo_rebuild (t : Transform (Recorded σ)) {r : Registry} (hr : SortedRegistry r)
    (hl : r.contains t.definition.linked = true) :
    PassKeepsTo (.reset :: t.callPlan r FloatMath.negInfinity) t (t.rebuild r) := by
  have hreset : Evaluator.reset (Evaluator.checkpoint t.evaluator) =
      (Evaluator.checkpoint t.evaluator).keep .reset (fun _ => none)
        (Evaluator.reset (Evaluator.checkpoint t.evaluator).evaluator) := rfl
  unfold rebuild
  rw [if_pos hl, hreset]
  obtain ⟨e, outcome⟩ := Evaluator.reset (Evaluator.checkpoint t.evaluator).evaluator
  let answered : Turn := ⟨.reset, outcome.map fun _ => none⟩
  let s : Recorded σ := ⟨e, (Evaluator.checkpoint t.evaluator).turns ++ [answered]⟩
  have hs : s.turns = t.evaluator.turns ++ ⟨.checkpoint, .done none⟩ :: [answered] := by
    simp only [s, checkpoint_turns, List.append_assoc, List.singleton_append]
  cases outcome with
  | abort why =>
    have hstop : Follows (Turn.GoesOn t.Fits)
        (.reset :: t.callPlan r FloatMath.negInfinity) [answered] :=
      .stopped (Turn.not_goesOn_abort why)
    exact passKeepsTo_finish hs hstop (.abort why) (fun p hp => by cases hp) r true
  | failed error =>
    have hstop : Follows (Turn.GoesOn t.Fits)
        (.reset :: t.callPlan r FloatMath.negInfinity) [answered] :=
      .stopped (Turn.not_goesOn_failed error)
    exact passKeepsTo_finish hs hstop (.failed error) (fun p hp => by cases hp) r true
  | done u =>
    obtain ⟨calls, hcalls, hfollows, hdone⟩ := evaluate_turns t hr isNumber_negInfinity s
    rw [hs, List.append_assoc] at hcalls
    refine passKeepsTo_finish hcalls (.next Turn.goesOn_none hfollows) _ (fun p hp => ?_) r true
    have hall := hdone p hp
    exact congrArg (.reset :: ·) hall

section Recording

theorem evaluateAll_unrecorded (t : Transform (Recorded σ)) (channels : List Series)
    (s : Recorded σ) (ps : List Point) :
    t.unrecorded.evaluateAll channels s.evaluator ps =
      ((t.evaluateAll channels s ps).1.evaluator, (t.evaluateAll channels s ps).2) := by
  induction ps generalizing s with
  | nil => rfl
  | cons p ps ih =>
    have hcall : Evaluator.call s p.x p.y (Alignment.align channels p.x) =
        s.keep (.call p.x p.y (Alignment.align channels p.x)) some
          (Evaluator.call s.evaluator p.x p.y (Alignment.align channels p.x)) := rfl
    have hextract : t.unrecorded.extract = t.extract := rfl
    rw [evaluateAll_cons, evaluateAll_cons, hcall, hextract]
    obtain ⟨e, outcome⟩ := Evaluator.call s.evaluator p.x p.y (Alignment.align channels p.x)
    cases outcome with
    | abort why => rfl
    | failed error => rfl
    | done v =>
      simp only [Recorded.keep]
      cases t.extract p.x v with
      | error error => rfl
      | ok ys =>
        have hrest := ih ⟨e, s.turns ++
          [⟨.call p.x p.y (Alignment.align channels p.x), .done (some v)⟩]⟩
        simp only [hrest, Attempt.map]

theorem evaluate_unrecorded (t : Transform (Recorded σ)) (r : Registry) (mark : Float)
    (s : Recorded σ) :
    t.unrecorded.evaluate r mark s.evaluator =
      ((t.evaluate r mark s).1.evaluator, (t.evaluate r mark s).2) := by
  have hd : t.unrecorded.definition = t.definition := rfl
  have hs : t.unrecorded.slotted = t.slotted := rfl
  unfold evaluate
  rw [hd, hs]
  cases r.find? t.definition.linked with
  | none => rfl
  | some linked =>
    cases Alignment.resolve r t.slotted.channels with
    | error e => rfl
    | ok channels => simp only [evaluateAll_unrecorded]

theorem finish_unrecorded (t : Transform (Recorded σ)) (s : Recorded σ) (r : Registry)
    (replace : Bool) (outcome : Attempt (Option Pass)) :
    { t.unrecorded with evaluator := s.evaluator }.finish r replace outcome =
      unrecordedResult ({ t with evaluator := s }.finish r replace outcome) := by
  cases outcome with
  | abort why => rfl
  | failed e => rfl
  | done p => cases p <;> rfl

theorem update_unrecorded (t : Transform (Recorded σ)) (r : Registry) :
    t.unrecorded.update r = unrecordedResult (t.update r) := by
  have heval := evaluate_unrecorded t r t.mark (Evaluator.checkpoint t.evaluator)
  have hfinish := finish_unrecorded t (t.evaluate r t.mark (Evaluator.checkpoint t.evaluator)).1 r
    t.replaces (t.evaluate r t.mark (Evaluator.checkpoint t.evaluator)).2
  have hcheck : Evaluator.checkpoint t.unrecorded.evaluator =
      (Evaluator.checkpoint t.evaluator).evaluator := rfl
  have hmark : t.unrecorded.mark = t.mark := rfl
  rw [update, hcheck, hmark, heval]
  exact hfinish

theorem rebuild_unrecorded (t : Transform (Recorded σ)) (r : Registry) :
    t.unrecorded.rebuild r = unrecordedResult (t.rebuild r) := by
  have hreset : Evaluator.reset (Evaluator.checkpoint t.evaluator) =
      (Evaluator.checkpoint t.evaluator).keep .reset (fun _ => none)
        (Evaluator.reset (Evaluator.checkpoint t.unrecorded.evaluator)) := rfl
  have hlinked : t.unrecorded.definition.linked = t.definition.linked := rfl
  unfold rebuild
  rw [hlinked, hreset]
  split
  next =>
    obtain ⟨e, outcome⟩ := Evaluator.reset (Evaluator.checkpoint t.unrecorded.evaluator)
    let s : Recorded σ := ⟨e, (Evaluator.checkpoint t.evaluator).turns ++
      [⟨.reset, outcome.map fun _ => none⟩]⟩
    cases outcome with
    | abort why => exact finish_unrecorded t s r true (.abort why)
    | failed error => exact finish_unrecorded t s r true (.failed error)
    | done u =>
      have heval := evaluate_unrecorded t r FloatMath.negInfinity s
      have hfinish := finish_unrecorded t (t.evaluate r FloatMath.negInfinity s).1 r true
        (t.evaluate r FloatMath.negInfinity s).2
      have he : s.evaluator = e := rfl
      rw [he] at heval
      simp only [Recorded.keep, heval]
      exact hfinish
  next => rfl

theorem compile_unrecorded (d : Definition) (s : Recorded σ) :
    compile d s.evaluator =
      ((compile d s).1.evaluator, (compile d s).2.map Transform.unrecorded) := by
  unfold compile
  cases Template.assignSlots d.expression d.linked with
  | error error => rfl
  | ok slotted =>
    simp only [Evaluator.loadGlobals, Evaluator.bind, Evaluator.call, Evaluator.reset,
      Recorded.keep]
    obtain ⟨loaded, outcome⟩ := Evaluator.loadGlobals s.evaluator d.globals
    cases outcome with
    | abort why => rfl
    | failed error => rfl
    | done _ =>
    simp only
    obtain ⟨bound, outcome⟩ := Evaluator.bind loaded slotted.text
    cases outcome with
    | abort why => rfl
    | failed error => rfl
    | done _ =>
    simp only
    obtain ⟨probed, outcome⟩ := Evaluator.call bound 0 1 (slotted.channels.map fun _ => 1)
    cases outcome with
    | abort why => rfl
    | failed error => rfl
    | done v =>
    simp only
    cases OutputShape.ofReading v with
    | error error => rfl
    | ok shape =>
    simp only
    obtain ⟨fresh, outcome⟩ := Evaluator.reset probed
    cases outcome <;> rfl

end Recording

/-- Compilation asks for the preamble, the expression, a trial call and a reset, as far as the answers
let it go on. An update asks for a checkpoint and for a call with each linked sample later than the mark,
in the order of the series and with the latest values of the channels; a rebuild does the same for the
whole series after a reset, and asks nothing without a linked series. The first call that fails or does
not fit ends the pass, and a failed pass ends with a restoring. -/
theorem evaluator_is_asked_by_plan (d : Definition) (e : σ) :
    compile d e = ((compile d (Recorded.silent e)).1.evaluator,
      (compile d (Recorded.silent e)).2.map Transform.unrecorded) ∧
    Follows (Turn.GoesOn HasShape) (compilePlan d) (compile d (Recorded.silent e)).1.turns ∧
    ∀ t r, Reached d (Recorded.silent e) t → SortedRegistry r →
      (t.definition = d ∧ Template.assignSlots d.expression d.linked = .ok t.slotted) ∧
      t.unrecorded.update r = unrecordedResult (t.update r) ∧
      PassKeepsTo (t.callPlan r t.mark) t (t.update r) ∧
      t.unrecorded.rebuild r = unrecordedResult (t.rebuild r) ∧
      if r.contains d.linked then
        PassKeepsTo (.reset :: t.callPlan r FloatMath.negInfinity) t (t.rebuild r)
      else (t.rebuild r).1.evaluator.turns = t.evaluator.turns := by
  refine ⟨compile_unrecorded d (Recorded.silent e), compile_turns d e, ?_⟩
  intro t r ht hr
  obtain ⟨s, fresh, hc, hsame⟩ := ht.compiled_signal
  have hcompiles := compiles_of_done hc
  have hd : t.definition = d := hsame.definition.trans hcompiles.definition
  refine ⟨⟨hd, ?_⟩, update_unrecorded t r, passKeepsTo_update t hr ht.isNumber_mark,
    rebuild_unrecorded t r, ?_⟩
  · rw [hsame.slotted]
    exact hcompiles.slots
  · subst hd
    split
    next hl => exact passKeepsTo_rebuild t hr hl
    next hl =>
      have habsent : r.find? t.definition.linked = none := by
        simpa [NameMap.contains] using hl
      rw [rebuild_of_absent habsent]

theorem SortedRegistry.insert {r : Registry} (hr : SortedRegistry r) {s : Series}
    (hs : Ascending s.points) (name : String) : SortedRegistry (NameMap.insert r name s) := by
  intro q u hq
  rw [NameMap.find?_insert] at hq
  split at hq
  next =>
    cases hq
    exact hs
  next => exact hr q u hq

/-- A channel that begins late, and a third sample whose result does not fit. -/
theorem evaluator_is_asked_by_plan_misfit :
    ∃ (t : Transform (Recorded Session)) (r : Registry),
      let d : Definition := ⟨"f", "x", "", "if value > 1 { [value] } else { value + $$a$$ }"⟩
      Reached d (Recorded.silent (Session.new {})) t ∧ SortedRegistry r ∧
      PassKeepsTo (t.callPlan r t.mark) t (t.update r) ∧
      PassKeepsTo (.reset :: t.callPlan r FloatMath.negInfinity) t (t.rebuild r) ∧
      (t.update r).1.evaluator.turns.map (·.query) =
        [.loadGlobals "", .bind "if value > 1 { [value] } else { value + CHANNEL_VALUES[0] }",
          .call 0 1 [1], .reset, .checkpoint, .call 0 1 [FloatMath.nan], .call 1 1 [10],
          .call 2 5 [10], .restore] := by
  let d : Definition := ⟨"f", "x", "", "if value > 1 { [value] } else { value + $$a$$ }"⟩
  let r : Registry := (NameMap.empty.insert "x" ⟨[⟨0, 1⟩, ⟨1, 1⟩, ⟨2, 5⟩, ⟨3, 1⟩], none⟩).insert "a"
    ⟨[⟨0.5, 10⟩], none⟩
  obtain ⟨s, t, hc, hturns⟩ : ∃ s t, compile d (Recorded.silent (Session.new {})) = (s, .done t) ∧
      ((t.register r).1.update r).1.evaluator.turns.map (·.query) =
        [.loadGlobals "", .bind "if value > 1 { [value] } else { value + CHANNEL_VALUES[0] }",
          .call 0 1 [1], .reset, .checkpoint, .call 0 1 [FloatMath.nan], .call 1 1 [10],
          .call 2 5 [10], .restore] :=
    exists_compile_of_any (by decide +kernel)
  have hr : SortedRegistry r := by
    have hempty : SortedRegistry NameMap.empty := by
      intro name s hs
      cases hs
    exact (hempty.insert (by decide +kernel) "x").insert (by decide +kernel) "a"
  have ht : Reached d (Recorded.silent (Session.new {})) (t.register r).1 := .registered r (.compiled hc)
  obtain ⟨-, -, hasked⟩ := evaluator_is_asked_by_plan d (Session.new {})
  obtain ⟨-, -, hupdate, -, hrebuild⟩ := hasked _ r ht hr
  rw [if_pos (by decide)] at hrebuild
  exact ⟨_, r, ht, hr, hupdate, hrebuild, hturns⟩

end DerivedSignal
