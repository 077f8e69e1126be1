import DerivedSignal.Proofs.Lifecycle
import DerivedSignal.Proofs.OutputNames
import DerivedSignal.Proofs.SeriesOrder
import DerivedSignal.Proofs.SessionState

namespace DerivedSignal

open Transform

/-- Evaluates one more sample on a session, and puts its values behind the columns of the outputs.
A run that has come to an end stays as it is. -/
def referenceStep (name : String) (shape : OutputShape) (channels : List Series) :
    Session × Attempt (List (List Point)) → Point → Session × Attempt (List (List Point))
  | (s, .done columns), p =>
    match s.call p.x p.y (Alignment.align channels p.x) with
    | (s, .abort why) => (s, .abort why)
    | (s, .failed e) => (s, .failed e)
    | (s, .done value) =>
      match shape.extract value with
      | .error actual => (s, .failed (.shapeMismatch name p.x shape.describe actual))
      | .ok ys => (s, .done (List.zipWith (fun column y => column ++ [⟨p.x, y⟩]) columns ys))
  | stopped, _ => stopped

/-- The reference run: a new session with preamble and expression, and nothing but a call for each of
the samples that `chosen` takes from the linked series. -/
def reference (chosen : Series → List Point) (d : Definition) (limits : Limits)
    (shape : OutputShape) (r : Registry) (linked : Series) : Session × Attempt (List (List Point)) :=
  let s := Session.new limits
  match Template.assignSlots d.expression d.linked with
  | .error e => (s, .failed e)
  | .ok slotted =>
    match s.loadGlobals d.globals with
    | (s, .abort why) => (s, .abort why)
    | (s, .failed e) => (s, .failed e)
    | (s, .done ()) =>
      match s.bind slotted.text with
      | (s, .abort why) => (s, .abort why)
      | (s, .failed e) => (s, .failed e)
      | (s, .done ()) =>
        match Alignment.resolve r slotted.channels with
        | .error e => (s, .failed e)
        | .ok channels =>
          (chosen linked).foldl (referenceStep d.name shape channels)
            (s, .done (List.replicate shape.arity []))

/-- The samples of a series from the index on at which a search for the first sample later than −∞ ends. -/
def started (linked : Series) : List Point := linked.after FloatMath.negInfinity

theorem started_of_ascending {linked : Series} (h : Ascending linked.points) :
    started linked = linked.points.filter fun p => FloatMath.negInfinity < p.x :=
  (Series.after_eq_dropWhile h _).trans (Series.dropWhile_eq_filter h FloatOrder.isNumber_negInfinity)

theorem started_of_finite {linked : Series} (h : Ascending linked.points)
    (hfinite : ∀ p ∈ linked.points, FloatMath.negInfinity < p.x → p.x.isFinite = true) :
    started linked = linked.points.filter fun p => p.x.isFinite := by
  rw [started_of_ascending h]
  refine List.filter_congr fun p hp => ?_
  exact Bool.eq_iff_iff.mpr ⟨fun hlater => hfinite p hp (of_decide_eq_true hlater),
    fun hx => decide_eq_true (FloatOrder.negInfinity_lt_of_isFinite hx)⟩

/-- A pass ends as the reference run does: with its error, or with its columns in the outputs, its
variables, and the mark on the last sample. -/
inductive EndsLike (names : List String) (samples : List Point) (bound : Option Float) :
    Session × Attempt (List (List Point)) → Transform Session × Registry × Attempt Nat → Prop
  | done {s columns t r}
      (outputs : ∀ (i : Nat) (q : String), names[i]? = some q → ∃ column, columns[i]? = some column ∧
        r.find? q = some (Series.pushAll ⟨[], bound⟩ column))
      (mark : t.mark = (samples.getLast?.map (·.x)).getD FloatMath.negInfinity)
      (globals : t.evaluator.globals = s.globals) :
      EndsLike names samples bound (s, .done columns)
        (t, r, .done (columns.head?.elim 0 List.length))
  | failed {s e t r} : EndsLike names samples bound (s, .failed e) (t, r, .failed e)
  | abort {s t r why} : EndsLike names samples bound (s, .abort why) (t, r, .abort why)

theorem EndsLike.outcome {names : List String} {samples : List Point} {bound : Option Float}
    {run : Session × Attempt (List (List Point))}
    {result : Transform Session × Registry × Attempt Nat}
    (h : EndsLike names samples bound run result) :
    result.2.2 = run.2.map fun columns => columns.head?.elim 0 List.length := by
  cases h <;> rfl

/-- The columns of some rows. -/
def columnsOf (arity : Nat) (rows : List (Float × List Float)) : List (List Point) :=
  (List.range arity).map fun i => Pass.column ⟨rows, none⟩ i

theorem columnsOf_nil (arity : Nat) : columnsOf arity [] = List.replicate arity [] := by
  simp [columnsOf, Pass.column, List.map_const']

theorem getElem?_columnsOf {arity i : Nat} (h : i < arity) (rows : List (Float × List Float)) :
    (columnsOf arity rows)[i]? = some (Pass.column ⟨rows, none⟩ i) := by
  simp [columnsOf, h]

theorem length_head_columnsOf {arity : Nat} {rows : List (Float × List Float)}
    (h : ∀ row ∈ rows, row.2.length = arity) :
    (columnsOf arity rows).head?.elim 0 List.length = if arity = 0 then 0 else rows.length := by
  cases arity with
  | zero => rfl
  | succ n =>
    have hfirst : ∀ row ∈ rows, 0 < row.2.length := fun row hr => by rw [h row hr]; omega
    have hx := congrArg List.length (Pass.xs_column hfirst none)
    rw [List.length_map, List.length_map] at hx
    simpa [columnsOf, List.range_succ_eq_map] using hx

theorem columnsOf_append_row {arity : Nat} {ys : List Float} (h : ys.length = arity)
    (rows : List (Float × List Float)) (x : Float) :
    List.zipWith (fun column y => column ++ [⟨x, y⟩]) (columnsOf arity rows) ys =
      columnsOf arity (rows ++ [(x, ys)]) := by
  refine List.ext_getElem (by simp [columnsOf, h]) fun i hi hi' => ?_
  have hlen : i < ys.length := by
    simp only [columnsOf, List.length_map, List.length_range] at hi'
    omega
  simp [columnsOf, Pass.column, List.getElem?_eq_getElem hlen]

theorem foldl_referenceStep_stopped (name : String) (shape : OutputShape) (channels : List Series)
    (s : Session) {outcome : Attempt (List (List Point))} (h : ∀ columns, outcome ≠ .done columns)
    (ps : List Point) :
    ps.foldl (referenceStep name shape channels) (s, outcome) = (s, outcome) := by
  induction ps with
  | nil => rfl
  | cons p ps ih =>
    cases outcome with
    | done columns => exact absurd rfl (h columns)
    | abort why => exact ih
    | failed e => exact ih

/-- The reference run and a pass evaluate samples alike. -/
theorem foldl_referenceStep (t : Transform Session) (channels : List Series) (s : Session)
    (rows : List (Float × List Float)) (ps : List Point) :
    ps.foldl (referenceStep t.definition.name t.shape channels)
        (s, .done (columnsOf t.shape.arity rows)) =
      ((t.evaluateAll channels s ps).1, (t.evaluateAll channels s ps).2.map fun more =>
        columnsOf t.shape.arity (rows ++ more)) := by
  induction ps generalizing s rows with
  | nil => simp [evaluateAll, Attempt.map]
  | cons p ps ih =>
    have hcall : Evaluator.call s p.x p.y (Alignment.align channels p.x) =
        s.call p.x p.y (Alignment.align channels p.x) := rfl
    rw [List.foldl_cons, evaluateAll_cons, hcall, referenceStep]
    obtain ⟨s', outcome⟩ := s.call p.x p.y (Alignment.align channels p.x)
    cases outcome with
    | abort why => exact foldl_referenceStep_stopped _ _ _ _ (by simp) ps
    | failed e => exact foldl_referenceStep_stopped _ _ _ _ (by simp) ps
    | done value =>
      cases hy : t.shape.extract value with
      | error actual =>
        simp only [extract, hy]
        exact foldl_referenceStep_stopped _ _ _ _ (by simp) ps
      | ok ys =>
        have hlen := OutputShape.length_of_extract hy
        simp only [extract, hy]
        rw [columnsOf_append_row hlen, ih, Attempt.map_map]
        simp only [List.append_assoc, List.singleton_append]

/-- The session of a signal that has just been compiled, as the reference run has it. -/
theorem reference_of_compiles {d : Definition} {limits : Limits} {t : Transform Session}
    (h : Compiles d (Session.new limits) t) (chosen : Series → List Point) (r : Registry)
    (linked : Series) :
    ∃ s, s.core = t.evaluator.core ∧ reference chosen d limits t.shape r linked =
      match Alignment.resolve r t.slotted.channels with
      | .error e => (s, .failed e)
      | .ok channels => (chosen linked).foldl (referenceStep d.name t.shape channels)
          (s, .done (columnsOf t.shape.arity [])) := by
  obtain ⟨loaded, bound, probed, value, hload, hbind, hcall, -, hreset⟩ := h.steps
  have hloaded : (Session.new limits).loadGlobals d.globals = (loaded, .done ()) := hload
  have hbound : loaded.bind t.slotted.text = (bound, .done ()) := hbind
  obtain ⟨p, hp, hpreamble⟩ := Session.loadGlobals_done hloaded
  have hexpression := Session.bind_done hbound
  refine ⟨bound, ?_, ?_⟩
  · -- The trial call changes variables only, and the reset makes these anew from the preamble.
    have hprobed : Session.SameScript bound probed := by
      have hs := (Session.sameScript_call bound 0 1 (t.slotted.channels.map fun _ => 1)).1
      rwa [show bound.call 0 1 _ = _ from hcall] at hs
    have hfresh := (Session.sameScript_reset probed).1
    rw [hreset] at hfresh
    have hsame := hprobed.trans hfresh
    obtain ⟨-, hglobals⟩ := Session.runPreamble_of_reset hreset
    have hpre : bound.preamble = some p := by rw [hexpression, hpreamble]
    have hlimits : bound.limits = limits := by rw [hexpression, hpreamble]; rfl
    rw [hprobed.preamble, hpre, hprobed.limits, hlimits] at hglobals
    have hg : bound.globals = t.evaluator.globals := by
      have hsame : Attempt.done loaded.globals = .done t.evaluator.globals := hp.symm.trans hglobals
      rw [hexpression]
      exact Attempt.done.inj hsame
    exact (Session.core_eq_iff _ _).mpr
      ⟨hsame.limits.symm, hg, hsame.preamble.symm, hsame.expression.symm⟩
  · simp only [reference, h.slots, hloaded, hbound, columnsOf_nil]

/-- A pass over the whole linked series, on a session like that of the reference run. -/
theorem endsLike_finish {t : Transform Session} {s s₀ : Session} {r r₀ : Registry}
    {linked : Series} (hl : r.find? t.definition.linked = some linked)
    (hr : Alignment.resolve r t.slotted.channels = Alignment.resolve r₀ t.slotted.channels)
    (hs : s₀.core = s.core) (hn : t.outputs.Nodup) :
    EndsLike t.outputs (linked.after FloatMath.negInfinity) linked.bound
      (match Alignment.resolve r₀ t.slotted.channels with
      | .error e => (s₀, .failed e)
      | .ok channels => (linked.after FloatMath.negInfinity).foldl
          (referenceStep t.definition.name t.shape channels)
          (s₀, .done (columnsOf t.shape.arity [])))
      ({ t with evaluator := (t.evaluate r FloatMath.negInfinity s).1 }.finish r true
        (t.evaluate r FloatMath.negInfinity s).2) := by
  cases hc : Alignment.resolve r₀ t.slotted.channels with
  | error e =>
    rw [evaluate_of_unresolved hl (hr.trans hc)]
    exact EndsLike.failed
  | ok channels =>
    obtain ⟨hcore, houtcome⟩ := Session.evaluateAll_of_core_eq hs t channels
      (linked.after FloatMath.negInfinity)
    rw [evaluate_of_found hl (hr.trans hc)]
    simp only [foldl_referenceStep, houtcome]
    cases hrows : (t.evaluateAll channels s (linked.after FloatMath.negInfinity)).2 with
    | abort why => exact EndsLike.abort
    | failed e => exact EndsLike.failed
    | done rows =>
      have hpass : t.evaluateAll channels s (linked.after FloatMath.negInfinity) =
          (_, .done rows) := Prod.ext rfl hrows
      have hlen := (rows_of_evaluateAll hpass).2
      have hsize : t.outputs.length = t.shape.arity :=
        OutputShape.length_outputNames t.definition.name t.shape
      have hcount : (if t.outputs = [] then 0 else rows.length) =
          (columnsOf t.shape.arity rows).head?.elim 0 List.length := by
        rw [length_head_columnsOf hlen, ← hsize]
        simp only [List.length_eq_zero_iff]
      simp only [Attempt.map, List.nil_append]
      rw [finish_done, hcount, last?_of_evaluateAll hpass]
      refine EndsLike.done (fun i q hq => ?_) ?_ ?_
      · refine ⟨_, getElem?_columnsOf (lt_arity_of_output hq) rows, ?_⟩
        exact (find?_writeOutputs hn hq).trans (by rw [writeOutput_replacing, Nat.zero_add]; rfl)
      · rfl
      · exact ((Session.core_eq_iff _ _).mp hcore).2.1.symm

theorem sameScript_of_isPass {t : Transform Session} {r : Registry}
    {result : Transform Session × Registry × Attempt Nat} (h : t.IsPass r result) :
    Session.SameScript t.evaluator result.1.evaluator := by
  obtain ⟨s, replace, outcome, hs, rfl⟩ := h
  have hscript := (Session.sameScript_of_driven hs).1
  have hscript : Session.SameScript t.evaluator s :=
    ⟨hscript.limits, hscript.preamble, hscript.expression⟩
  have hrestored : Session.SameScript s (Evaluator.restore s) := by
    change Session.SameScript s s.restore
    unfold Session.restore
    split <;> exact ⟨rfl, rfl, rfl⟩
  cases outcome with
  | abort why => exact hscript
  | failed e => exact hscript.trans hrestored
  | done p => cases p <;> exact hscript

/-- No operation changes preamble and expression. -/
theorem Lifecycle.sameScript {d : Definition} {start s : Session}
    {outside : Registry → Registry → Prop} {t fresh : Transform Session} {r : Registry}
    {created : List String} (h : Lifecycle d start outside t r created)
    (hc : compile d start = (s, .done fresh)) :
    Session.SameScript fresh.evaluator t.evaluator := by
  induction h with
  | compiled r ht =>
    cases hc.symm.trans ht
    exact ⟨rfl, rfl, rfl⟩
  | elsewhere _ _ ih => exact ih
  | register _ ih => exact ih
  | @update t r created t' r' outcome _ hu _ ih =>
    have hs := sameScript_of_isPass (isPass_update t r)
    rw [hu] at hs
    exact ih.trans hs
  | @rebuild t r created t' r' outcome _ hu _ ih =>
    cases hl : r.find? t.definition.linked with
    | none =>
      rw [rebuild_of_absent hl] at hu
      cases hu
      exact ih
    | some linked =>
      have hs := sameScript_of_isPass (isPass_rebuild hl)
      rw [hu] at hs
      exact ih.trans hs

/-- The first update of a registered signal ends as the reference run does, and so does a rebuild from
whatever state. Unless a linked sample lies at NaN, the run evaluates the linked samples later than −∞ in their
order, which are those at a finite timestamp unless one lies at ∞. -/
theorem evaluation_from_scratch {d : Definition} {limits : Limits} {s : Session}
    {fresh : Transform Session} {r : Registry} {linked : Series}
    (hc : compile d (Session.new limits) = (s, .done fresh))
    (hl : r.find? d.linked = some linked) (hlinked : d.linked ∉ fresh.outputs)
    (hchannels : ∀ q ∈ fresh.slotted.channels, q ∉ fresh.outputs) :
    EndsLike fresh.outputs (started linked) linked.bound
        (reference started d limits fresh.shape r linked)
        ((fresh.register r).1.update (fresh.register r).2) ∧
      (∀ {outside t r₀ created}, Lifecycle d (Session.new limits) outside t r₀ created →
        EndsLike fresh.outputs (started linked) linked.bound
          (reference started d limits fresh.shape r linked) (t.rebuild r)) ∧
      (Ascending linked.points →
        started linked = (linked.points.filter fun p => FloatMath.negInfinity < p.x) ∧
        ((∀ p ∈ linked.points, FloatMath.negInfinity < p.x → p.x.isFinite = true) →
          started linked = linked.points.filter fun p => p.x.isFinite)) := by
  have hcompiles := compiles_of_done hc
  obtain rfl := hcompiles.definition
  obtain ⟨s₀, hs₀, href⟩ := reference_of_compiles hcompiles started r linked
  have hn := outputs_nodup hcompiles
  rw [href]
  refine ⟨?_, ?_, fun h => ⟨started_of_ascending h, started_of_finite h⟩⟩
  · have hfind : ∀ q, q ∉ fresh.outputs → (fresh.register r).2.find? q = r.find? q := by
      intro q hq
      simp [find?_register, hq]
    have hresolve := Alignment.resolve_congr fun q hq => hfind q (hchannels q hq)
    have hfound : (fresh.register r).2.find? fresh.definition.linked = some linked := by
      rw [← hl]
      exact hfind fresh.definition.linked hlinked
    exact endsLike_finish (t := (fresh.register r).1) hfound hresolve hs₀ hn
  · intro outside t r₀ created h
    have hsame := h.sameSignal hc
    have hreset : Evaluator.reset (Evaluator.checkpoint t.evaluator) =
        ({ t.evaluator.checkpoint with globals := fresh.evaluator.globals }, .done ()) := by
      obtain ⟨-, -, probed, -, -, -, -, -, hreset⟩ := hcompiles.steps
      have hprobed := (Session.sameScript_reset probed).1
      rw [hreset] at hprobed
      have hscript := hprobed.trans (h.sameScript hc)
      exact Session.reset_congr hreset ⟨hscript.limits, hscript.preamble, hscript.expression⟩
    have hfound : r.find? t.definition.linked = some linked := by rw [hsame.definition, hl]
    have hcore : s₀.core =
        Session.core { t.evaluator.checkpoint with globals := fresh.evaluator.globals } := by
      have hscript := h.sameScript hc
      rw [hs₀]
      exact (Session.core_eq_iff _ _).mpr
        ⟨hscript.limits.symm, rfl, hscript.preamble.symm, hscript.expression.symm⟩
    have hends := endsLike_finish hfound (rfl : _ = Alignment.resolve r t.slotted.channels) hcore
      (hsame.outputs ▸ hn)
    rw [rebuild_of_reset hfound hreset]
    simpa only [started, hsame.outputs, hsame.definition, hsame.slotted, hsame.shape] using hends

/-- A counter and a channel: the update and the rebuild after it count from the start. -/
theorem evaluation_from_scratch_counter :
    ∃ (s : Session) (fresh : Transform Session) (r : Registry) (linked : Series),
      let d : Definition := ⟨"f", "x", "let n = 0;", "n += 1; n * $$a$$"⟩
      compile d (Session.new {}) = (s, .done fresh) ∧ r.find? "x" = some linked ∧
      "x" ∉ fresh.outputs ∧ (∀ q ∈ fresh.slotted.channels, q ∉ fresh.outputs) ∧
      let ends := EndsLike fresh.outputs (started linked) linked.bound
        (reference started d {} fresh.shape r linked)
      let first := (fresh.register r).1.update (fresh.register r).2
      first.2.2 = .done 2 ∧ ends first ∧ ends (first.1.rebuild r) ∧
      started linked = linked.points.filter fun p => p.x.isFinite := by
  let d : Definition := ⟨"f", "x", "let n = 0;", "n += 1; n * $$a$$"⟩
  let linked : Series := ⟨[⟨0, 1⟩, ⟨1, 1⟩], none⟩
  let r : Registry := (NameMap.empty.insert "x" linked).insert "a" ⟨[⟨0, 10⟩], none⟩
  obtain ⟨s, fresh, hc, hx, ha, hupdate⟩ : ∃ s t, compile d (Session.new {}) = (s, .done t) ∧
      "x" ∉ t.outputs ∧ (∀ q ∈ t.slotted.channels, q ∉ t.outputs) ∧
      ((t.register r).1.update (t.register r).2).2.2 = .done 2 :=
    exists_compile_of_any (by decide +kernel)
  have hl : r.find? d.linked = some linked := rfl
  obtain ⟨hfirst, hrebuild, hordered⟩ := evaluation_from_scratch hc hl hx ha
  have hascending : Ascending linked.points := of_decide_eq_true (by decide +kernel)
  have hfinite : ∀ p ∈ linked.points, FloatMath.negInfinity < p.x → p.x.isFinite = true := by decide +kernel
  have hcompiled : Lifecycle d (Session.new {}) (fun _ _ => False) fresh r [] := .compiled r hc
  have hlife := hcompiled.register.update (eq_of_outcome hupdate) (by simp)
  exact ⟨s, fresh, r, linked, hc, hl, hx, ha, hupdate, hfirst, hrebuild hlife, (hordered hascending).2 hfinite⟩

/-- A sample at ∞ is evaluated like any other, and where one lies at NaN the search may end behind a sample at a
finite timestamp: a run over the finite samples alone ends differently. -/
theorem scratch_run_not_finite_samples :
    let d : Definition := ⟨"f", "x", "", "value"⟩
    let finite (s : Series) := s.points.filter fun p => p.x.isFinite
    let refuting (linked : Series) := ∃ (s : Session) (fresh : Transform Session) (r : Registry),
      compile d (Session.new {}) = (s, .done fresh) ∧ r.find? "x" = some linked ∧
      "x" ∉ fresh.outputs ∧ (∀ q ∈ fresh.slotted.channels, q ∉ fresh.outputs) ∧
      ¬ EndsLike fresh.outputs (finite linked) linked.bound
        (reference finite d {} fresh.shape r linked)
        ((fresh.register r).1.update (fresh.register r).2)
    refuting (Series.ofList [⟨0, 1⟩, ⟨FloatMath.infinity, 2⟩]) ∧
      refuting (Series.ofList [⟨0, 1⟩, ⟨FloatMath.nan, 2⟩, ⟨FloatMath.negInfinity, 3⟩, ⟨1, 4⟩]) := by
  intro d finite refuting
  let count (columns : List (List Point)) := columns.head?.elim 0 List.length
  have hrefuting : ∀ linked : Series, (∃ s t, compile d (Session.new {}) = (s, .done t) ∧
      "x" ∉ t.outputs ∧ (∀ q ∈ t.slotted.channels, q ∉ t.outputs) ∧
      let r : Registry := NameMap.empty.insert "x" linked
      ((t.register r).1.update (t.register r).2).2.2 ≠ (reference finite d {} t.shape r linked).2.map count) →
      refuting linked :=
    fun _ ⟨s, fresh, hc, hx, ha, hcounts⟩ => ⟨s, fresh, _, hc, rfl, hx, ha, fun h => hcounts h.outcome⟩
  exact ⟨hrefuting _ (exists_compile_of_any (by decide +kernel)),
    hrefuting _ (exists_compile_of_any (by decide +kernel))⟩

end DerivedSignal
