import DerivedSignal.Proofs.Lifecycle
import DerivedSignal.Proofs.OutputNames
import DerivedSignal.Proofs.SeriesOrder

namespace DerivedSignal

open FloatOrder Transform

/-- A sample of the linked series, and whether an update had reached its timestamp when it came. -/
structure Arrival where
  sample : Point
  late : Bool
  deriving DecidableEq

namespace Arrival

/-- The samples of a list of arrivals. -/
def samples (arrivals : List Arrival) : List Point := arrivals.map (·.sample)

@[simp] theorem samples_append (arrivals more : List Arrival) :
    samples (arrivals ++ more) = samples arrivals ++ samples more :=
  List.map_append

theorem mem_samples {arrivals : List Arrival} {p : Point} :
    p ∈ samples arrivals ↔ ∃ a ∈ arrivals, a.sample = p :=
  List.mem_map

/-- The samples that came in time. -/
def timely (arrivals : List Arrival) : List Point := samples (arrivals.filter fun a => !a.late)

theorem timely_append (arrivals more : List Arrival) :
    timely (arrivals ++ more) = timely arrivals ++ timely more := by
  simp [timely]

theorem timely_of_not_late {arrivals : List Arrival} (h : ∀ a ∈ arrivals, a.late = false) :
    timely arrivals = samples arrivals := by
  have hall : (arrivals.filter fun a => !a.late) = arrivals := by
    apply List.filter_eq_self.mpr
    intro a ha
    simp [h a ha]
  rw [timely, hall]

end Arrival

open Arrival

/-- The runs of a signal that is compiled and registered, while samples are appended to its linked
series in ascending order, equal timestamps allowed, and updates take place now and then. `evaluated` is
the last timestamp of the series at the last successful update. -/
inductive StreamRun (d : Definition) (limits : Limits) :
    Transform Session → Registry → Float → List Arrival → Prop
  | start {s t} {r : Registry} : compile d (Session.new limits) = (s, .done t) →
      (r.getD d.linked).bound = none → Ascending (r.getD d.linked).points →
      (∀ p ∈ (r.getD d.linked).points, p.x.isFinite = true) →
      StreamRun d limits (t.register r).1 (t.register r).2 FloatMath.negInfinity
        ((r.getD d.linked).points.map fun p => ⟨p, false⟩)
  | append {t r evaluated arrivals} {p : Point} : StreamRun d limits t r evaluated arrivals →
      p.x.isFinite = true → (∀ q ∈ (r.getD d.linked).points, q.x ≤ p.x) →
      StreamRun d limits t (r.insert d.linked ((r.getD d.linked).push p)) evaluated
        (arrivals ++ [⟨p, p.x ≤ evaluated⟩])
  | elsewhere {t r r' evaluated arrivals} : StreamRun d limits t r evaluated arrivals →
      r'.getD d.linked = r.getD d.linked → (∀ q ∈ t.outputs, r'.find? q = r.find? q) →
      StreamRun d limits t r' evaluated arrivals
  | updated {t r evaluated arrivals t' r' n} : StreamRun d limits t r evaluated arrivals →
      t.update r = (t', r', .done n) →
      StreamRun d limits t' r' (lastX (r.getD d.linked).points) arrivals
  | failed {t r evaluated arrivals t' r' e} : StreamRun d limits t r evaluated arrivals →
      t.update r = (t', r', .failed e) → StreamRun d limits t' r' evaluated arrivals

/-- The outputs are unbounded and have the timestamps of these samples. -/
def HoldsXs (names : List String) (ps : List Point) (r : Registry) : Prop :=
  ∀ q ∈ names, ∃ qs, r.find? q = some ⟨qs, none⟩ ∧ qs.map (·.x) = ps.map (·.x)

theorem HoldsXs.getD {names : List String} {ps : List Point} {r : Registry} (h : HoldsXs names ps r)
    {q : String} (hq : q ∈ names) : (r.getD q).points.map (·.x) = ps.map (·.x) := by
  obtain ⟨qs, hfind, hxs⟩ := h q hq
  rw [Registry.getD_of_find? hfind]
  exact hxs

/-- A pass puts one point for each of its rows behind what the outputs hold, or in its place. -/
theorem holdsXs_writeOutputs {names : List String} (hn : names.Nodup)
    {rows : List (Float × List Float)} (hlen : ∀ row ∈ rows, row.2.length = names.length)
    {ps more : List Point} (hx : rows.map (·.1) = more.map (·.x)) (hs : Ascending (ps ++ more))
    {replace : Bool} {r : Registry} (hold : if replace then ps = [] else HoldsXs names ps r) :
    HoldsXs names (ps ++ more) (writeOutputs replace ⟨rows, none⟩ 0 names r) := by
  intro q hq
  obtain ⟨i, hi⟩ := List.mem_iff_getElem?.mp hq
  have hsize : ∀ row ∈ rows, i < row.2.length := by
    intro row hrow
    rw [hlen row hrow]
    exact (List.getElem?_eq_some_iff.mp hi).1
  have hcolumn : (Pass.column ⟨rows, none⟩ i).map (·.x) = more.map (·.x) :=
    (Pass.xs_column hsize none).trans hx
  rw [find?_writeOutputs hn hi, Nat.zero_add]
  cases replace with
  | true =>
    simp only [if_true] at hold
    subst hold
    have hascending : Ascending ([] ++ Pass.column ⟨rows, none⟩ i) := ascending_of_xs hcolumn hs
    refine ⟨_, ?_, hcolumn⟩
    rw [writeOutput_replacing, Series.points_pushAll hascending, List.nil_append]
  | false =>
    obtain ⟨qs, hqs, hxs⟩ := hold q hq
    have hall : (qs ++ Pass.column ⟨rows, none⟩ i).map (·.x) = (ps ++ more).map (·.x) := by
      rw [List.map_append, List.map_append, hxs, hcolumn]
    have hascending := ascending_of_xs hall hs
    refine ⟨_, ?_, hall⟩
    rw [Registry.getD_of_find? hqs, ← Series.points_pushAll hascending]
    rfl

/-- A signal whose linked series consists of `before`, which lie up to the mark, and of `pending`, which
lie behind it and have come in time. The outputs hold the timely part of `before`. -/
structure InStream (d : Definition) (t : Transform Session) (r : Registry) (evaluated : Float)
    (before pending : List Arrival) : Prop where
  definition : t.definition = d
  distinct : t.outputs.Nodup
  linked : r.getD d.linked = ⟨samples (before ++ pending), none⟩
  ascending : Ascending (samples (before ++ pending))
  finite : ∀ p ∈ samples (before ++ pending), p.x.isFinite = true
  mark : lastX (samples before) ≤ t.mark ∧ t.mark ≤ lastX (samples before)
  evaluated : evaluated ≤ t.mark ∧ t.mark ≤ evaluated
  later : ∀ a ∈ pending, t.mark < a.sample.x ∧ a.late = false
  staged : ∀ q ∈ t.staged, q ∈ t.outputs
  replacing : t.replaces = true → before = []
  appending : t.replaces = false → t.staged = [] ∧ HoldsXs t.outputs (timely before) r

namespace InStream

variable {d : Definition} {t t' : Transform Session} {r r' : Registry} {evaluated : Float}
  {before pending : List Arrival}

theorem of_register {limits : Limits} {s : Session}
    (hc : compile d (Session.new limits) = (s, .done t)) (apart : d.linked ∉ t.outputs)
    (hb : (r.getD d.linked).bound = none) (hs : Ascending (r.getD d.linked).points)
    (hf : ∀ p ∈ (r.getD d.linked).points, p.x.isFinite = true) :
    InStream d (t.register r).1 (t.register r).2 FloatMath.negInfinity []
      ((r.getD d.linked).points.map fun p => ⟨p, false⟩) := by
  have hcompiles := compiles_of_done hc
  have hkept : (t.register r).2.getD d.linked = r.getD d.linked := by
    simp [Registry.getD, find?_register, apart]
  have hsamples : samples ([] ++ (r.getD d.linked).points.map fun p => ⟨p, false⟩) =
      (r.getD d.linked).points := by
    simp [samples, List.map_map, Function.comp_def]
  have hdistinct : t.outputs.Nodup := outputs_nodup hcompiles
  refine
    { definition := hcompiles.definition
      distinct := hdistinct
      linked := by rw [hkept, hsamples, ← hb]
      ascending := by rw [hsamples]; exact hs
      finite := by rw [hsamples]; exact hf
      mark := ⟨isNumber_negInfinity, isNumber_negInfinity⟩
      evaluated := ⟨isNumber_negInfinity, isNumber_negInfinity⟩
      later := fun a ha => ?_
      staged := fun q hq => ?_
      replacing := fun _ => rfl
      appending := fun hr => by cases hr }
  · obtain ⟨p, hp, rfl⟩ := List.mem_map.mp ha
    exact ⟨negInfinity_lt_of_isFinite (hf p hp), rfl⟩
  · rcases (mem_staged_register t r q).mp hq with hq | hq
    · simp [hcompiles.staged] at hq
    · exact hq.1

theorem before_le_mark (h : InStream d t r evaluated before pending) :
    ∀ p ∈ samples before, p.x ≤ t.mark := by
  intro p hp
  have hs := h.ascending
  rw [samples_append] at hs
  exact FloatOrder.le_trans (le_lastX (ascending_append_left hs) p hp) h.mark.1

theorem mark_lt_pending (h : InStream d t r evaluated before pending) :
    ∀ p ∈ samples pending, t.mark < p.x := by
  intro p hp
  obtain ⟨a, ha, rfl⟩ := mem_samples.mp hp
  exact (h.later a ha).1

theorem appended (h : InStream d t r evaluated before pending) (apart : d.linked ∉ t.outputs) {p : Point}
    (hp : p.x.isFinite = true) (hle : ∀ q ∈ samples (before ++ pending), q.x ≤ p.x) (late : Bool) :
    Registry.getD (r.insert d.linked ((r.getD d.linked).push p)) d.linked =
        ⟨samples (before ++ pending ++ [⟨p, late⟩]), none⟩ ∧
      Ascending (samples (before ++ pending ++ [⟨p, late⟩])) ∧
      (∀ q ∈ samples (before ++ pending ++ [⟨p, late⟩]), q.x.isFinite = true) ∧
      ∀ ps, HoldsXs t.outputs ps r →
        HoldsXs t.outputs ps (r.insert d.linked ((r.getD d.linked).push p)) := by
  have hlast : samples (before ++ pending ++ [⟨p, late⟩]) = samples (before ++ pending) ++ [p] := by
    rw [samples_append]
    rfl
  have hascending := ascending_concat h.ascending (isNumber_of_isFinite hp) hle
  rw [hlast]
  refine ⟨?_, hascending, fun q hq => ?_, fun ps hps q hq => ?_⟩
  · rw [Registry.getD_insert, if_pos rfl, h.linked, ← Series.points_pushAll hascending]
    rfl
  · rcases List.mem_append.mp hq with hq | hq
    · exact h.finite q hq
    · cases List.mem_singleton.mp hq
      exact hp
  · have hne : d.linked ≠ q := fun he => apart (he ▸ hq)
    rw [NameMap.find?_insert, if_neg hne]
    exact hps q hq

theorem append_timely (h : InStream d t r evaluated before pending) (apart : d.linked ∉ t.outputs)
    {p : Point} (hp : p.x.isFinite = true) (hle : ∀ q ∈ samples (before ++ pending), q.x ≤ p.x)
    (htimely : evaluated < p.x) :
    InStream d t (r.insert d.linked ((r.getD d.linked).push p)) evaluated before
      (pending ++ [⟨p, false⟩]) := by
  obtain ⟨hlinked, hascending, hfinite, hholds⟩ := h.appended apart hp hle false
  rw [List.append_assoc] at hlinked hascending hfinite
  refine { h with
    linked := hlinked
    ascending := hascending
    finite := hfinite
    later := fun a ha => ?_
    appending := fun hr => ⟨(h.appending hr).1, hholds _ (h.appending hr).2⟩ }
  rcases List.mem_append.mp ha with ha | ha
  · exact h.later a ha
  · cases List.mem_singleton.mp ha
    exact ⟨lt_of_le_of_lt h.evaluated.2 htimely, rfl⟩

theorem append_late (h : InStream d t r evaluated before pending) (apart : d.linked ∉ t.outputs)
    {p : Point} (hp : p.x.isFinite = true) (hle : ∀ q ∈ samples (before ++ pending), q.x ≤ p.x)
    (hlate : p.x ≤ evaluated) :
    pending = [] ∧ InStream d t (r.insert d.linked ((r.getD d.linked).push p)) evaluated
      (before ++ [⟨p, true⟩]) [] := by
  have hmark : p.x ≤ t.mark := FloatOrder.le_trans hlate h.evaluated.1
  have hlow : FloatMath.negInfinity < p.x := negInfinity_lt_of_isFinite hp
  have hnone : pending = [] := by
    apply List.eq_nil_iff_forall_not_mem.mpr
    intro a ha
    have hm : a.sample ∈ samples (before ++ pending) :=
      mem_samples.mpr ⟨a, List.mem_append_right before ha, rfl⟩
    have hlt : t.mark < p.x := lt_of_lt_of_le (h.later a ha).1 (hle a.sample hm)
    exact not_le_of_lt hlt hmark
  subst hnone
  obtain ⟨hlinked, hascending, hfinite, hholds⟩ := h.appended apart hp hle true
  rw [List.append_nil] at hlinked hascending hfinite hle
  have hlast : lastX (samples (before ++ [⟨p, true⟩])) = p.x := by
    simp [lastX, samples]
  have hbelow : lastX (samples before) ≤ p.x := lastX_le (FloatOrder.le_of_lt hlow) hle
  refine ⟨rfl, { h with
    linked := by rw [List.append_nil]; exact hlinked
    ascending := by rw [List.append_nil]; exact hascending
    finite := by rw [List.append_nil]; exact hfinite
    mark := by rw [hlast]; exact ⟨hmark, FloatOrder.le_trans h.mark.2 hbelow⟩
    later := fun a ha => by cases ha
    replacing := fun hr => ?_
    appending := fun hr => ⟨(h.appending hr).1, ?_⟩ }⟩
  · -- Before the first commit the mark is −∞, and no sample is late.
    have hmark' := h.mark.2
    rw [h.replacing hr] at hmark'
    exact absurd (FloatOrder.le_trans hmark hmark') (not_le_of_lt hlow)
  · have htimely : timely (before ++ [⟨p, true⟩]) = timely before := by
      simp [timely]
    rw [htimely]
    exact hholds _ (h.appending hr).2

theorem elsewhere (h : InStream d t r evaluated before pending)
    (hin : r'.getD d.linked = r.getD d.linked) (hout : ∀ q ∈ t.outputs, r'.find? q = r.find? q) :
    InStream d t r' evaluated before pending := by
  refine { h with
    linked := hin.trans h.linked
    appending := fun hr => ⟨(h.appending hr).1, fun q hq => ?_⟩ }
  rw [hout q hq]
  exact (h.appending hr).2 q hq

theorem failed (h : InStream d t r evaluated before pending) (apart : d.linked ∉ t.outputs) {e : Error}
    (hu : t.update r = (t', r', .failed e)) : InStream d t' r' evaluated before pending := by
  obtain ⟨s, -, rfl, rfl⟩ := of_failed_isPass (hu ▸ isPass_update t r)
  have hkept : Registry.getD (t.staged.foldl (fun r name => r.erase name) r) d.linked =
      r.getD d.linked := by
    have hn : d.linked ∉ t.staged := fun hm => apart (h.staged _ hm)
    simp only [Registry.getD, Registry.find?_eraseAll, if_neg hn]
  refine { h with
    linked := hkept.trans h.linked
    staged := fun q hq => by cases hq
    appending := fun hr => ?_ }
  obtain ⟨hstaged, hholds⟩ := h.appending hr
  rw [hstaged]
  exact ⟨rfl, hholds⟩

theorem updated_absent (h : InStream d t r evaluated before pending) {n : Nat}
    (hl : r.find? d.linked = none) (hu : t.update r = (t', r', .done n)) :
    InStream d t' r' (lastX (r.getD d.linked).points) before pending := by
  have hempty : r.getD d.linked = Series.empty := by simp [Registry.getD, hl]
  have hnone : samples (before ++ pending) = [] := by
    have hpoints := congrArg Series.points (h.linked.symm.trans hempty)
    exact hpoints
  obtain ⟨rfl, rfl⟩ := List.append_eq_nil_iff.mp (List.map_eq_nil_iff.mp hnone)
  rw [update, evaluate_of_absent (by rw [h.definition, hl])] at hu
  cases hu
  rw [hempty]
  exact { h with
    evaluated := h.mark
    staged := fun q hq => by cases hq
    appending := fun hr => ⟨rfl, (h.appending hr).2⟩ }

/-- The mark of a successful update stands where the samples end. -/
theorem mark_after (h : InStream d t r evaluated before pending) {mark : Float}
    (hmark : mark = ((samples pending).getLast?.map (·.x)).getD
      (if t.replaces then FloatMath.negInfinity else t.mark)) :
    lastX (samples (before ++ pending)) ≤ mark ∧ mark ≤ lastX (samples (before ++ pending)) := by
  rw [samples_append, lastX_append, hmark]
  cases hb : (samples pending).getLast? with
  | none =>
    simp only [Option.map_none, Option.getD_none]
    split
    next hr =>
      rw [h.replacing hr]
      exact ⟨isNumber_negInfinity, isNumber_negInfinity⟩
    next => exact h.mark
  | some back =>
    have hback : back ∈ samples (before ++ pending) := by
      rw [samples_append]
      exact List.mem_append_right _ (List.mem_of_getLast? hb)
    exact ⟨h.ascending.numbers back hback, h.ascending.numbers back hback⟩

/-- A successful update leaves nothing pending. -/
theorem updated_found (h : InStream d t r evaluated before pending) (apart : d.linked ∉ t.outputs)
    {linked : Series} {n : Nat} (hl : r.find? d.linked = some linked)
    (hu : t.update r = (t', r', .done n)) :
    r'.find? d.linked = some linked ∧
      InStream d t' r' (lastX linked.points) (before ++ pending) [] ∧ t'.replaces = false := by
  have hseries : linked = ⟨samples (before ++ pending), none⟩ :=
    (Registry.getD_of_find? hl).symm.trans h.linked
  have hfound : r.find? t.definition.linked = some linked := by rw [h.definition, hl]
  have hafter : linked.after t.mark = samples pending := by
    have hpoints : linked.points = samples before ++ samples pending := by
      rw [hseries, samples_append]
    exact Series.after_eq hpoints h.before_le_mark h.mark_lt_pending
  obtain ⟨channels, s, rows, hc, hrows⟩ := evaluateAll_of_update hfound hu
  have hupdate := update_of_evaluateAll hfound hc hrows
  rw [hafter] at hrows
  rw [hu, hafter] at hupdate
  cases hupdate
  obtain ⟨hx, hlen⟩ := rows_of_evaluateAll hrows
  have hkept : (writeOutputs t.replaces ⟨rows, linked.bound⟩ 0 t.outputs r).find? d.linked =
      some linked := by
    rw [find?_writeOutputs_of_not_mem apart, hl]
  have htimely : timely (before ++ pending) = timely before ++ samples pending := by
    rw [timely_append, timely_of_not_late fun a ha => (h.later a ha).2]
  have hholds : HoldsXs t.outputs (timely (before ++ pending))
      (writeOutputs t.replaces ⟨rows, linked.bound⟩ 0 t.outputs r) := by
    have hsize : t.outputs.length = t.shape.arity :=
      OutputShape.length_outputNames t.definition.name t.shape
    have hsub : (timely (before ++ pending)).Sublist (samples (before ++ pending)) :=
      List.filter_sublist.map _
    have hs : Ascending (timely before ++ samples pending) :=
      ascending_sublist (htimely ▸ hsub) h.ascending
    have hold : if t.replaces then timely before = [] else HoldsXs t.outputs (timely before) r := by
      split
      next hr => rw [h.replacing hr]; rfl
      next hr => exact (h.appending (by simpa using hr)).2
    have hbound : linked.bound = none := by rw [hseries]
    rw [htimely, hbound]
    exact holdsXs_writeOutputs h.distinct (fun row hrow => (hlen row hrow).trans hsize.symm) hx hs hold
  obtain ⟨hlast, hlast'⟩ := h.mark_after rfl
  have hpoints : linked.points = samples (before ++ pending) := by rw [hseries]
  refine ⟨hkept,
    { definition := h.definition
      distinct := h.distinct
      linked := by rw [Registry.getD_of_find? hkept, hseries, List.append_nil]
      ascending := by rw [List.append_nil]; exact h.ascending
      finite := by rw [List.append_nil]; exact h.finite
      mark := ⟨hlast, hlast'⟩
      evaluated := by rw [hpoints]; exact ⟨hlast, hlast'⟩
      later := fun a ha => by cases ha
      staged := fun q hq => by cases hq
      replacing := fun hr => by cases hr
      appending := fun _ => ⟨rfl, hholds⟩ }, rfl⟩

theorem of_run {limits : Limits} {arrivals : List Arrival}
    (h : StreamRun d limits t r evaluated arrivals) (apart : d.linked ∉ t.outputs) :
    ∃ before pending, arrivals = before ++ pending ∧ InStream d t r evaluated before pending := by
  induction h with
  | start hc hb hs hf => exact ⟨[], _, rfl, of_register hc apart hb hs hf⟩
  | @append t r evaluated arrivals p _ hp hle ih =>
    obtain ⟨before, pending, rfl, h⟩ := ih apart
    rw [h.linked] at hle
    rcases lt_or_le (isNumber_right h.evaluated.2) (isNumber_of_isFinite hp) with htimely | hlate
    · have hflag : decide (p.x ≤ evaluated) = false := decide_eq_false (not_le_of_lt htimely)
      rw [hflag]
      exact ⟨before, _, List.append_assoc .., h.append_timely apart hp hle htimely⟩
    · have hflag : decide (p.x ≤ evaluated) = true := decide_eq_true hlate
      obtain ⟨rfl, h'⟩ := h.append_late apart hp hle hlate
      rw [hflag, List.append_nil]
      exact ⟨_, [], (List.append_nil _).symm, h'⟩
  | elsewhere _ hin hout ih =>
    obtain ⟨before, pending, harrivals, h⟩ := ih apart
    exact ⟨before, pending, harrivals, h.elsewhere hin hout⟩
  | @updated t r evaluated arrivals t' r' n _ hu ih =>
    have hsame := sameSignal_update t r
    rw [hu] at hsame
    rw [hsame.outputs] at apart
    obtain ⟨before, pending, harrivals, h⟩ := ih apart
    cases hl : r.find? d.linked with
    | none => exact ⟨before, pending, harrivals, h.updated_absent hl hu⟩
    | some linked =>
      obtain ⟨-, h', -⟩ := h.updated_found apart hl hu
      rw [Registry.getD_of_find? hl]
      exact ⟨_, [], harrivals.trans (List.append_nil _).symm, h'⟩
  | @failed t r evaluated arrivals t' r' e _ hu ih =>
    have hsame := sameSignal_update t r
    rw [hu] at hsame
    rw [hsame.outputs] at apart
    obtain ⟨before, pending, harrivals, h⟩ := ih apart
    exact ⟨before, pending, harrivals, h.failed apart hu⟩

theorem rebuilt (h : InStream d t r evaluated before pending) {linked : Series} {n : Nat}
    (hl : r.find? d.linked = some linked) (hu : t.rebuild r = (t', r', .done n)) :
    HoldsXs t.outputs linked.points r' := by
  have hseries : linked = ⟨samples (before ++ pending), none⟩ :=
    (Registry.getD_of_find? hl).symm.trans h.linked
  have hafter : linked.after FloatMath.negInfinity = linked.points := by
    refine Series.after_eq (List.nil_append _).symm (fun p hp => by cases hp) fun p hp => ?_
    rw [hseries] at hp
    exact negInfinity_lt_of_isFinite (h.finite p hp)
  have hs : Ascending ([] ++ linked.points) := by
    rw [hseries]
    exact h.ascending
  have hsize : t.outputs.length = t.shape.arity :=
    OutputShape.length_outputNames t.definition.name t.shape
  obtain ⟨channels, s, s', rows, hrows, rfl⟩ := registry_of_rebuild (by rw [h.definition, hl]) hu
  obtain ⟨hx, hlen⟩ := rows_of_evaluateAll hrows
  rw [hafter] at hx
  have hbound : linked.bound = none := by rw [hseries]
  rw [hbound]
  exact holdsXs_writeOutputs h.distinct (fun row hrow => (hlen row hrow).trans hsize.symm) hx hs
    (by simp)

end InStream

/-- After a successful update every output has exactly one point for each sample of the linked series
that came before its timestamp was evaluated, and after a rebuild one for each sample. -/
theorem update_covers_timely_samples {d : Definition} {limits : Limits} {t t' : Transform Session}
    {r r' : Registry} {evaluated : Float} {arrivals : List Arrival} {linked : Series} {n : Nat}
    (h : StreamRun d limits t r evaluated arrivals) (apart : d.linked ∉ t.outputs)
    (hl : r.find? d.linked = some linked) (hu : t.update r = (t', r', .done n)) :
    r'.find? d.linked = some linked ∧ linked.points = samples arrivals ∧ t'.outputs = t.outputs ∧
      HoldsXs t.outputs (timely arrivals) r' ∧
      ∀ t'' r'' m, t'.rebuild r' = (t'', r'', .done m) → HoldsXs t.outputs linked.points r'' := by
  obtain ⟨before, pending, rfl, hstream⟩ := InStream.of_run h apart
  obtain ⟨hl', hstream', hr⟩ := hstream.updated_found apart hl hu
  have hsame := sameSignal_update t r
  rw [hu] at hsame
  have hholds := (hstream'.appending hr).2
  rw [hsame.outputs] at hholds
  refine ⟨hl', ?_, hsame.outputs, hholds, ?_⟩
  · rw [← Registry.getD_of_find? hl, hstream.linked]
  · intro t'' r'' m hrebuild
    have hrebuilt := hstream'.rebuilt hl' hrebuild
    rwa [hsame.outputs] at hrebuilt

/-- Two outputs; of three samples the second comes when its timestamp has been evaluated. -/
theorem update_covers_timely_samples_tie :
    ∃ (t t' : Transform Session) (r r' : Registry) (evaluated : Float) (arrivals : List Arrival)
      (linked : Series),
      let d : Definition := ⟨"f", "x", "", "[value, -value]"⟩
      StreamRun d {} t r evaluated arrivals ∧ "x" ∉ t.outputs ∧ r.find? "x" = some linked ∧
      t.update r = (t', r', .done 1) ∧ linked.points = samples arrivals ∧
      HoldsXs t.outputs (timely arrivals) r' ∧
      arrivals = [⟨⟨0, 1⟩, false⟩, ⟨⟨0, 2⟩, true⟩, ⟨⟨1, 3⟩, false⟩] := by
  let d : Definition := ⟨"f", "x", "", "[value, -value]"⟩
  let r : Registry := NameMap.empty.insert "x" ⟨[⟨0, 1⟩], none⟩
  let one (t : Transform Session) := (t.register r).1.update (t.register r).2
  let pushed (r : Registry) (p : Point) : Registry := r.insert "x" ((r.getD "x").push p)
  let more (t : Transform Session) := pushed (pushed (one t).2.1 ⟨0, 2⟩) ⟨1, 3⟩
  obtain ⟨s, t, hc, apart, hkept, hone, hfirst, hsecond, htwo⟩ :
      ∃ s t, compile d (Session.new {}) = (s, .done t) ∧ "x" ∉ (one t).1.outputs ∧
        ((t.register r).2.getD "x").points = [⟨0, 1⟩] ∧ (one t).2.2 = .done 1 ∧
        (∀ q ∈ ((one t).2.1.getD "x").points, q.x ≤ 0) ∧
        (∀ q ∈ ((pushed (one t).2.1 ⟨0, 2⟩).getD "x").points, q.x ≤ 1) ∧
        ((one t).1.update (more t)).2.2 = .done 1 :=
    exists_compile_of_any (by decide +kernel)
  have hstart : StreamRun d {} (t.register r).1 (t.register r).2 FloatMath.negInfinity
      [⟨⟨0, 1⟩, false⟩] :=
    .start hc rfl (by decide +kernel) (by decide +kernel)
  have hupdated := hstart.updated (eq_of_outcome hone)
  have hrun := (hupdated.append (p := ⟨0, 2⟩) (by decide +kernel) hfirst).append (p := ⟨1, 3⟩)
    (by decide +kernel) hsecond
  have hl := NameMap.find?_insert (pushed (one t).2.1 ⟨0, 2⟩) "x" d.linked
    (((pushed (one t).2.1 ⟨0, 2⟩).getD "x").push ⟨1, 3⟩)
  rw [if_pos rfl] at hl
  obtain ⟨-, hsamples, -, hholds, -⟩ :=
    update_covers_timely_samples hrun apart hl (eq_of_outcome htwo)
  refine ⟨_, _, _, _, _, _, _, hrun, apart, hl, eq_of_outcome htwo, hsamples, hholds, ?_⟩
  rw [show (t.register r).2.getD d.linked = (t.register r).2.getD "x" from rfl, hkept]
  decide +kernel

/-- After a sample that comes when its timestamp has been evaluated, the output has fewer samples than the
linked series. If that series is an output itself, it grows with every pass while another output has one
point for each sample that was appended. -/
theorem update_not_all_samples :
    (∃ (t t' : Transform Session) (r r' : Registry) (evaluated : Float) (arrivals : List Arrival)
      (linked : Series),
      StreamRun ⟨"f", "x", "", "value"⟩ {} t r evaluated arrivals ∧ "x" ∉ t.outputs ∧
      t.update r = (t', r', .done 0) ∧ r'.find? "x" = some linked ∧
      ¬ HoldsXs t.outputs linked.points r') ∧
    ∃ (t t' : Transform Session) (r r' : Registry) (evaluated : Float) (arrivals : List Arrival)
      (linked : Series),
      StreamRun ⟨"f", "f.0", "", "[value, value]"⟩ {} t r evaluated arrivals ∧
      (∀ a ∈ arrivals, a.late = false) ∧
      t.update r = (t', r', .done 1) ∧ r'.find? "f.0" = some linked ∧
      ¬ HoldsXs t.outputs linked.points r' := by
  let one (t : Transform Session) (r : Registry) := (t.register r).1.update (t.register r).2
  let pushed (r : Registry) (name : String) (p : Point) : Registry :=
    r.insert name ((r.getD name).push p)
  refine ⟨?_, ?_⟩
  · let r : Registry := NameMap.empty.insert "x" ⟨[⟨0, 1⟩], none⟩
    obtain ⟨s, t, hc, apart, hone, hfirst, htwo, hl, hq, hxs⟩ :
        ∃ s t, compile ⟨"f", "x", "", "value"⟩ (Session.new {}) = (s, .done t) ∧
          "x" ∉ (one t r).1.outputs ∧ (one t r).2.2 = .done 1 ∧
          (∀ q ∈ ((one t r).2.1.getD "x").points, q.x ≤ 0) ∧
          ((one t r).1.update (pushed (one t r).2.1 "x" ⟨0, 2⟩)).2.2 = .done 0 ∧
          ((one t r).1.update (pushed (one t r).2.1 "x" ⟨0, 2⟩)).2.1.find? "x" =
            some ⟨[⟨0, 1⟩, ⟨0, 2⟩], none⟩ ∧
          "f" ∈ (one t r).1.outputs ∧
          (((one t r).1.update (pushed (one t r).2.1 "x" ⟨0, 2⟩)).2.1.getD "f").points.map (·.x) =
            [0] :=
      exists_compile_of_any (by decide +kernel)
    have hstart := StreamRun.start hc (r := r) rfl (by decide +kernel) (by decide +kernel)
    have hrun := (hstart.updated (eq_of_outcome hone)).append (p := ⟨0, 2⟩) (by decide +kernel) hfirst
    refine ⟨_, _, _, _, _, _, _, hrun, apart, eq_of_outcome htwo, hl, fun h => ?_⟩
    have hsame := hxs.symm.trans (h.getD hq)
    exact absurd hsame (by decide +kernel)
  · let r : Registry := NameMap.empty.insert "f.0" ⟨[⟨0, 1⟩], none⟩
    obtain ⟨s, t, hc, hone, hfirst, hkept, htwo, hl, hq, hxs⟩ :
        ∃ s t, compile ⟨"f", "f.0", "", "[value, value]"⟩ (Session.new {}) = (s, .done t) ∧
          (one t r).2.2 = .done 1 ∧ (∀ q ∈ ((one t r).2.1.getD "f.0").points, q.x ≤ 1) ∧
          ((t.register r).2.getD "f.0").points = [⟨0, 1⟩] ∧
          ((one t r).1.update (pushed (one t r).2.1 "f.0" ⟨1, 2⟩)).2.2 = .done 1 ∧
          ((one t r).1.update (pushed (one t r).2.1 "f.0" ⟨1, 2⟩)).2.1.find? "f.0" =
            some ⟨[⟨0, 1⟩, ⟨1, 2⟩, ⟨1, 2⟩], none⟩ ∧
          "f.1" ∈ (one t r).1.outputs ∧
          (((one t r).1.update (pushed (one t r).2.1 "f.0" ⟨1, 2⟩)).2.1.getD "f.1").points.map
            (·.x) = [0, 1] :=
      exists_compile_of_any (by decide +kernel)
    have hstart := StreamRun.start hc (r := r) rfl (by decide +kernel) (by decide +kernel)
    have hrun := (hstart.updated (eq_of_outcome hone)).append (p := ⟨1, 2⟩) (by decide +kernel) hfirst
    refine ⟨_, _, _, _, _, _, _, hrun, ?_, eq_of_outcome htwo, hl, fun h => ?_⟩
    · intro a ha
      rcases List.mem_append.mp ha with ha | ha
      · obtain ⟨p, -, rfl⟩ := List.mem_map.mp ha
        rfl
      · cases List.mem_singleton.mp ha
        change decide ((1 : Float) ≤ lastX ((t.register r).2.getD "f.0").points) = false
        rw [hkept]
        decide +kernel
    · have hsame := hxs.symm.trans (h.getD hq)
      exact absurd hsame (by decide +kernel)

end DerivedSignal
