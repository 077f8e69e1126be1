import DerivedSignal.Proofs.Lifecycle
import DerivedSignal.Proofs.OutputNames
import DerivedSignal.Proofs.SeriesOrder
import DerivedSignal.Proofs.SessionState

namespace DerivedSignal

open FloatOrder Transform

/-- The series that a signal reads. -/
def Transform.inputs {σ : Type} (t : Transform σ) : List String :=
  t.definition.linked :: t.slotted.channels

/-- The runs of a signal that is compiled, registered, and then updated now and then, while samples
later than the mark are pushed to the series that it reads and others leave its inputs and outputs
alone. `count` is what the successful updates returned. -/
inductive IncrementalRun (d : Definition) (limits : Limits) :
    Transform Session → Registry → Nat → Prop
  | start {s t} {r : Registry} (hc : compile d (Session.new limits) = (s, .done t))
      (apart : ∀ q ∈ t.inputs, q ∉ t.outputs) (unbounded : ∀ q ∈ t.inputs, (r.getD q).bound = none)
      (ascending : ∀ q ∈ t.inputs, Ascending (r.getD q).points)
      (later : ∀ p ∈ (r.getD d.linked).points, FloatMath.negInfinity < p.x) :
      IncrementalRun d limits (t.register r).1 (t.register r).2 0
  | push {t r count} {name : String} {p : Point} : IncrementalRun d limits t r count →
      name ∈ t.inputs → t.mark < p.x →
      IncrementalRun d limits t (r.insert name ((r.getD name).push p)) count
  | elsewhere {t r r' count} : IncrementalRun d limits t r count →
      (∀ q ∈ t.inputs, r'.getD q = r.getD q) → (∀ q ∈ t.outputs, r'.find? q = r.find? q) →
      IncrementalRun d limits t r' count
  | updated {t r count t' r' n} : IncrementalRun d limits t r count →
      t.update r = (t', r', .done n) → IncrementalRun d limits t' r' (count + n)
  | failed {t r count t' r' e} : IncrementalRun d limits t r count →
      t.update r = (t', r', .failed e) → IncrementalRun d limits t' r' count

/-- A series that keeps all its samples, in ascending order. -/
structure KeepsAll (s : Series) : Prop where
  bound : s.bound = none
  ascending : Ascending s.points

theorem KeepsAll.push {s : Series} {p : Point} (h : KeepsAll s) (hp : IsNumber p.x) : KeepsAll (s.push p) := by
  refine ⟨h.bound, ?_⟩
  simp only [Series.push, h.bound, Series.evict_none]
  exact Series.ascending_place h.ascending hp

theorem writeOutput_column {rows more : List (Float × List Float)} {ps : List Point} {i : Nat}
    (hx : (rows ++ more).map (·.1) = ps.map (·.x)) (hps : Ascending ps)
    (hi : ∀ row ∈ rows ++ more, i < row.2.length) :
    writeOutput false none (Pass.column ⟨more, none⟩ i) ⟨Pass.column ⟨rows, none⟩ i, none⟩ =
      ⟨Pass.column ⟨rows ++ more, none⟩ i, none⟩ := by
  have hxs := (Pass.xs_column hi none).trans hx
  rw [Pass.column_append] at hxs ⊢
  exact Series.points_pushAll (ascending_of_xs hxs hps)

/-- What the outputs hold after a successful pass with the results `rows`. -/
def HoldsColumns (names : List String) (rows : List (Float × List Float)) (r : Registry) : Prop :=
  ∀ (i : Nat) (q : String), names[i]? = some q → r.find? q = some ⟨Pass.column ⟨rows, none⟩ i, none⟩

/-- A transform that has evaluated the samples `processed`, with the results `rows`, is where a
single pass of the freshly compiled transform over them would have taken it. `pending` are the samples
that are still to be evaluated. -/
structure InStep (fresh t : Transform Session) (r : Registry) (count : Nat)
    (processed pending : List Point) (rows : List (Float × List Float)) : Prop where
  signal : SameSignal fresh t
  distinct : fresh.outputs.Nodup
  apart : ∀ q ∈ fresh.inputs, q ∉ fresh.outputs
  linked : r.getD fresh.definition.linked = ⟨processed ++ pending, none⟩
  kept : ∀ q ∈ fresh.slotted.channels, KeepsAll (r.getD q)
  ascending : Ascending (processed ++ pending)
  started : ∀ p ∈ processed ++ pending, FloatMath.negInfinity < p.x
  mark : t.mark = lastX processed
  later : ∀ p ∈ pending, t.mark < p.x
  evaluated : ∃ s, fresh.evaluateAll (fresh.slotted.channels.map r.getD) fresh.evaluator processed =
    (s, .done rows) ∧ s.core = t.evaluator.core
  staged : ∀ q ∈ t.staged, q ∈ fresh.outputs
  replacing : t.replaces = true → processed = []
  appending : t.replaces = false → t.staged = [] ∧ HoldsColumns fresh.outputs rows r
  count : fresh.outputs ≠ [] → count = processed.length

namespace InStep

variable {fresh t t' : Transform Session} {r r' : Registry} {count : Nat}
  {processed pending : List Point} {rows : List (Float × List Float)}

theorem before (h : InStep fresh t r count processed pending rows) :
    ∀ p ∈ processed, p.x ≤ t.mark := by
  intro p hp
  rw [h.mark]
  exact le_lastX (ascending_append_left h.ascending) p hp

theorem of_register {d : Definition} {limits : Limits} {s : Session}
    (hc : compile d (Session.new limits) = (s, .done t))
    (apart : ∀ q ∈ t.inputs, q ∉ t.outputs) (unbounded : ∀ q ∈ t.inputs, (r.getD q).bound = none)
    (ascending : ∀ q ∈ t.inputs, Ascending (r.getD q).points)
    (later : ∀ p ∈ (r.getD d.linked).points, FloatMath.negInfinity < p.x) :
    InStep t (t.register r).1 (t.register r).2 0 [] (r.getD d.linked).points [] := by
  have hcompiles := compiles_of_done hc
  obtain rfl := hcompiles.definition
  have hinput : ∀ q ∈ t.inputs, (t.register r).2.getD q = r.getD q := by
    intro q hq
    simp [Registry.getD, find?_register, apart q hq]
  refine
    { signal := ⟨rfl, rfl, rfl⟩
      distinct := outputs_nodup hcompiles
      apart := apart
      linked := ?_
      kept := fun q hq => ?_
      ascending := ascending _ List.mem_cons_self
      started := later
      mark := rfl
      later := later
      evaluated := ⟨t.evaluator, rfl, rfl⟩
      staged := fun q hq => ?_
      replacing := fun _ => rfl
      appending := fun hr => by cases hr
      count := fun _ => rfl }
  · have hb := unbounded t.definition.linked (by simp [inputs])
    rw [hinput t.definition.linked (by simp [inputs]), List.nil_append, ← hb]
  · rw [hinput q (by simp [inputs, hq])]
    exact ⟨unbounded q (by simp [inputs, hq]), ascending q (by simp [inputs, hq])⟩
  · rcases (mem_staged_register t r q).mp hq with hq | hq
    · simp [hcompiles.staged] at hq
    · exact hq.1

theorem negInfinity_le_mark (h : InStep fresh t r count processed pending rows) :
    FloatMath.negInfinity ≤ t.mark := by
  rw [h.mark, lastX]
  cases hb : processed.getLast? with
  | none => exact isNumber_negInfinity
  | some back =>
    have hm : back ∈ processed := List.mem_of_getLast? hb
    exact FloatOrder.le_of_lt (h.started back (List.mem_append_left pending hm))

theorem linked_push (h : InStep fresh t r count processed pending rows) {name : String} {p : Point}
    (hp : t.mark < p.x) :
    ∃ pending', Registry.getD (r.insert name ((r.getD name).push p)) fresh.definition.linked =
        ⟨processed ++ pending', none⟩ ∧ Ascending (processed ++ pending') ∧
      ∀ q ∈ pending', q = p ∨ q ∈ pending := by
  have hnum : IsNumber p.x := isNumber_right (FloatOrder.le_of_lt hp)
  by_cases hn : name = fresh.definition.linked
  · have hearly : ∀ q ∈ processed, q.x ≤ p.x := fun q hq =>
      FloatOrder.le_trans (h.before q hq) (FloatOrder.le_of_lt hp)
    have hplace := Series.place_append h.ascending hnum hearly
    refine ⟨Series.place p pending, ?_, ?_, fun q hq => ?_⟩
    · rw [Registry.getD_insert, if_pos hn, hn, h.linked]
      simp only [Series.push, Series.evict_none, hplace]
    · rw [← hplace]
      exact Series.ascending_place h.ascending hnum
    · exact (Series.mem_place (ascending_append_right h.ascending) hnum).mp hq
  · refine ⟨pending, ?_, h.ascending, fun q hq => Or.inr hq⟩
    rw [Registry.getD_insert, if_neg hn, h.linked]

/-- A sample that is later than the mark has no influence on what has been evaluated. -/
theorem push (h : InStep fresh t r count processed pending rows) {name : String} {p : Point}
    (hn : name ∈ fresh.inputs) (hp : t.mark < p.x) :
    ∃ pending', InStep fresh t (r.insert name ((r.getD name).push p)) count processed pending'
      rows := by
  obtain ⟨pending', hlinked, hascending, hmem⟩ := h.linked_push hp
  have hlater : ∀ q ∈ pending', t.mark < q.x := by
    intro q hq
    rcases hmem q hq with rfl | hq
    · exact hp
    · exact h.later q hq
  -- What has been evaluated lies before the new sample, so that no look-up in a channel sees it.
  have halign : ∀ q ∈ processed,
      Alignment.align (fresh.slotted.channels.map r.getD) q.x = Alignment.align
        (fresh.slotted.channels.map (Registry.getD (r.insert name ((r.getD name).push p)))) q.x := by
    intro q hq
    simp only [Alignment.align, List.map_map, List.map_inj_left, Function.comp_apply]
    intro channel hc
    rw [Registry.getD_insert]
    split
    next he =>
      subst he
      have hkept := h.kept name hc
      exact (Series.valueAt_push hkept.ascending hkept.bound (lt_of_le_of_lt (h.before q hq) hp)).symm
    next => rfl
  have hfind : ∀ q ∈ fresh.outputs,
      (r.insert name ((r.getD name).push p)).find? q = r.find? q := by
    intro q hq
    have hne : name ≠ q := fun he => h.apart name hn (he ▸ hq)
    rw [NameMap.find?_insert, if_neg hne]
  refine ⟨pending', { h with
    linked := hlinked
    kept := fun q hq => ?_
    ascending := hascending
    started := fun q hq => ?_
    later := hlater
    evaluated := ?_
    appending := fun hr => ⟨(h.appending hr).1, fun i q hq => ?_⟩ }⟩
  · rw [Registry.getD_insert]
    split
    next he =>
      subst he
      exact (h.kept name hq).push (isNumber_right (FloatOrder.le_of_lt hp))
    next => exact h.kept q hq
  · rcases List.mem_append.mp hq with hq | hq
    · exact h.started q (List.mem_append_left pending hq)
    · exact lt_of_le_of_lt h.negInfinity_le_mark (hlater q hq)
  · rw [← evaluateAll_congr_channels halign]
    exact h.evaluated
  · rw [hfind q (List.mem_of_getElem? hq)]
    exact (h.appending hr).2 i q hq

/-- What a signal reads, in a registry that agrees on its inputs. -/
theorem reads_congr (h : InStep fresh t r count processed pending rows)
    (hin : ∀ q ∈ fresh.inputs, r'.getD q = r.getD q) :
    r'.getD fresh.definition.linked = ⟨processed ++ pending, none⟩ ∧
      (∀ q ∈ fresh.slotted.channels, KeepsAll (r'.getD q)) ∧
      fresh.slotted.channels.map r'.getD = fresh.slotted.channels.map r.getD := by
  have hchannel : ∀ q ∈ fresh.slotted.channels, r'.getD q = r.getD q := fun q hq =>
    hin q (List.mem_cons_of_mem _ hq)
  refine ⟨?_, fun q hq => ?_, List.map_congr_left hchannel⟩
  · rw [hin _ List.mem_cons_self, h.linked]
  · rw [hchannel q hq]
    exact h.kept q hq

theorem elsewhere (h : InStep fresh t r count processed pending rows)
    (hin : ∀ q ∈ fresh.inputs, r'.getD q = r.getD q)
    (hout : ∀ q ∈ fresh.outputs, r'.find? q = r.find? q) :
    InStep fresh t r' count processed pending rows := by
  obtain ⟨hlinked, hkept, hchannels⟩ := h.reads_congr hin
  refine { h with
    linked := hlinked
    kept := hkept
    evaluated := by rw [hchannels]; exact h.evaluated
    appending := fun hr => ⟨(h.appending hr).1, fun i q hq => ?_⟩ }
  rw [hout q (List.mem_of_getElem? hq)]
  exact (h.appending hr).2 i q hq

/-- A failed update changes nothing that matters. -/
theorem failed (h : InStep fresh t r count processed pending rows) {e : Error}
    (hu : t.update r = (t', r', .failed e)) :
    InStep fresh t' r' count processed pending rows := by
  obtain ⟨s, hs, rfl, rfl⟩ := of_failed_isPass (hu ▸ isPass_update t r)
  have hcore : (Evaluator.restore s).core = t.evaluator.core :=
    Session.restoresCheckpoint_core t.evaluator s hs
  have hfind : ∀ q, q ∉ t.staged →
      NameMap.find? (t.staged.foldl (fun r name => r.erase name) r) q = r.find? q := by
    intro q hq
    rw [Registry.find?_eraseAll, if_neg hq]
  have hinput : ∀ q ∈ fresh.inputs,
      Registry.getD (t.staged.foldl (fun r name => r.erase name) r) q = r.getD q := by
    intro q hq
    have hn : q ∉ t.staged := fun hm => h.apart q hq (h.staged q hm)
    simp only [Registry.getD, hfind q hn]
  obtain ⟨hlinked, hkept, hchannels⟩ := h.reads_congr hinput
  obtain ⟨s', hrows, hs'⟩ := h.evaluated
  refine { h with
    signal := ⟨h.signal.definition, h.signal.slotted, h.signal.shape⟩
    linked := hlinked
    kept := hkept
    evaluated := ⟨s', by rw [hchannels, hrows], hs'.trans hcore.symm⟩
    staged := fun q hq => by cases hq
    appending := fun hr => ⟨rfl, fun i q hq => ?_⟩ }
  obtain ⟨hstaged, hcolumns⟩ := h.appending hr
  rw [hfind q (by simp [hstaged]), hcolumns i q hq]

theorem updated_absent (h : InStep fresh t r count processed pending rows) {n : Nat}
    (hl : r.find? fresh.definition.linked = none) (hu : t.update r = (t', r', .done n)) :
    InStep fresh t' r' (count + n) processed pending rows := by
  rw [update, evaluate_of_absent (by rw [h.signal.definition, hl])] at hu
  cases hu
  exact { h with
    signal := ⟨h.signal.definition, h.signal.slotted, h.signal.shape⟩
    staged := fun q hq => by cases hq
    appending := fun hr => ⟨rfl, (h.appending hr).2⟩ }

/-- An update that succeeds leaves the columns of all samples in the outputs. -/
theorem holdsColumns_writeOutputs (h : InStep fresh t r count processed pending rows)
    {more : List (Float × List Float)}
    (hx : (rows ++ more).map (·.1) = (processed ++ pending).map (·.x))
    (hlen : ∀ row ∈ rows ++ more, row.2.length = fresh.shape.arity) :
    HoldsColumns fresh.outputs (rows ++ more)
      (writeOutputs t.replaces ⟨more, none⟩ 0 fresh.outputs r) := by
  intro i q hq
  have hi : ∀ row ∈ rows ++ more, i < row.2.length := by
    intro row hrow
    rw [hlen row hrow]
    exact lt_arity_of_output hq
  rw [find?_writeOutputs h.distinct hq, Nat.zero_add]
  cases hr : t.replaces with
  | true =>
    -- The outputs may hold anything before the first commit, but nothing has been evaluated then.
    have hrows : rows = [] := by
      obtain ⟨s, hs, -⟩ := h.evaluated
      have hxs := (rows_of_evaluateAll hs).1
      rw [h.replacing hr] at hxs
      exact List.map_eq_nil_iff.mp hxs
    subst hrows
    have hcolumn := writeOutput_column hx h.ascending hi
    rw [writeOutput_replacing]
    exact congrArg some hcolumn
  | false =>
    obtain ⟨-, hcolumns⟩ := h.appending hr
    rw [Registry.getD_of_find? (hcolumns i q hq)]
    exact congrArg some (writeOutput_column hx h.ascending hi)

/-- What a successful update evaluates is the rest of a single pass. -/
theorem evaluated_pending (h : InStep fresh t r count processed pending rows) {linked : Series}
    {n : Nat} (hl : r.find? fresh.definition.linked = some linked)
    (hu : t.update r = (t', r', .done n)) :
    ∃ s more,
      Alignment.resolve r fresh.slotted.channels = .ok (fresh.slotted.channels.map r.getD) ∧
      t.update r =
        (⟨t.definition, t.slotted, t.shape, s, lastX (processed ++ pending), [], false⟩,
          writeOutputs t.replaces ⟨more, none⟩ 0 fresh.outputs r,
          .done (if fresh.outputs = [] then 0 else pending.length)) ∧
      ∃ s', fresh.evaluateAll (fresh.slotted.channels.map r.getD) fresh.evaluator
        (processed ++ pending) = (s', .done (rows ++ more)) ∧ s'.core = s.core := by
  have hsignal := h.signal
  have hseries : linked = ⟨processed ++ pending, none⟩ :=
    (Registry.getD_of_find? hl).symm.trans h.linked
  have hafter : linked.after t.mark = pending :=
    Series.after_eq (by rw [hseries]) h.before h.later
  rw [← hsignal.definition] at hl
  obtain ⟨channels, s, more, hc, hmore⟩ := evaluateAll_of_update hl hu
  have hupdate := update_of_evaluateAll hl hc hmore
  have hmark : (pending.getLast?.map (·.x)).getD
      (if t.replaces then FloatMath.negInfinity else t.mark) = lastX (processed ++ pending) := by
    rw [lastX_append, ← h.mark]
    cases hr : t.replaces with
    | true => rw [h.mark, h.replacing hr]; rfl
    | false => rfl
  rw [hafter, hmark, hseries, hsignal.outputs] at hupdate
  rw [hafter, evaluateAll_congr hsignal.shape hsignal.definition] at hmore
  rw [hsignal.slotted] at hc
  obtain rfl := Alignment.eq_of_resolve hc
  -- The update starts from a checkpoint and the single pass does not: only their cores agree.
  obtain ⟨s₀, hrows, hs₀⟩ := h.evaluated
  have hcheck : (Evaluator.checkpoint t.evaluator).core = s₀.core := hs₀.symm
  obtain ⟨s', hmore', hs'⟩ := Session.evaluateAll_done_of_core_eq hcheck hmore
  have hall := evaluateAll_append hrows pending
  rw [hmore'] at hall
  exact ⟨s, more, hc, hupdate, s', hall, hs'⟩

/-- A successful update leaves nothing pending, and the results of all samples in the outputs. -/
theorem updated_found (h : InStep fresh t r count processed pending rows) {linked : Series} {n : Nat}
    (hl : r.find? fresh.definition.linked = some linked) (hu : t.update r = (t', r', .done n)) :
    ∃ rows', InStep fresh t' r' (count + n) (processed ++ pending) [] rows' ∧
      HoldsColumns fresh.outputs rows' r' ∧ r'.find? fresh.definition.linked = some linked ∧
      Alignment.resolve r' fresh.slotted.channels =
        .ok (fresh.slotted.channels.map r'.getD) := by
  obtain ⟨s, more, hc, hupdate, s', hall, hs'⟩ := h.evaluated_pending hl hu
  obtain ⟨hx, hlen⟩ := rows_of_evaluateAll hall
  have hholds := h.holdsColumns_writeOutputs hx hlen
  have hfind : ∀ q ∈ fresh.inputs,
      (writeOutputs t.replaces ⟨more, none⟩ 0 fresh.outputs r).find? q = r.find? q :=
    fun q hq => find?_writeOutputs_of_not_mem (h.apart q hq)
  have hinput : ∀ q ∈ fresh.inputs,
      Registry.getD (writeOutputs t.replaces ⟨more, none⟩ 0 fresh.outputs r) q = r.getD q := by
    intro q hq
    simp only [Registry.getD, hfind q hq]
  obtain ⟨hlinked, hkept, hchannels⟩ := h.reads_congr hinput
  rw [hupdate] at hu
  cases hu
  refine ⟨rows ++ more,
    { signal := ⟨h.signal.definition, h.signal.slotted, h.signal.shape⟩
      distinct := h.distinct
      apart := h.apart
      linked := by rw [hlinked, List.append_nil]
      kept := hkept
      ascending := by rw [List.append_nil]; exact h.ascending
      started := by rw [List.append_nil]; exact h.started
      mark := rfl
      later := fun p hp => by cases hp
      evaluated := ⟨s', by rw [hchannels, hall], hs'⟩
      staged := fun q hq => by cases hq
      replacing := fun hr => by cases hr
      appending := fun _ => ⟨rfl, hholds⟩
      count := fun hne => ?_ }, hholds, ?_, ?_⟩
  · rw [if_neg hne, h.count hne, List.length_append]
  · rw [hfind _ List.mem_cons_self, hl]
  · rw [hchannels, ← hc]
    exact Alignment.resolve_congr fun q hq => hfind q (List.mem_cons_of_mem _ hq)

/-- A single update of the freshly compiled transform leads to the same place. -/
theorem fresh_update (h : InStep fresh t r count processed [] rows)
    (hholds : HoldsColumns fresh.outputs rows r) {linked : Series}
    (hl : r.find? fresh.definition.linked = some linked)
    (hc : Alignment.resolve r fresh.slotted.channels = .ok (fresh.slotted.channels.map r.getD)) :
    ∃ u n, (fresh.register r).1.update (fresh.register r).2 = (u, r, .done n) ∧
      u.mark = t.mark ∧ u.evaluator.core = t.evaluator.core := by
  have hpresent : ∀ q ∈ fresh.outputs, ∃ s, r.find? q = some s := by
    intro q hq
    obtain ⟨i, hi⟩ := List.mem_iff_getElem?.mp hq
    exact ⟨_, hholds i q hi⟩
  have hseries : linked = ⟨processed, none⟩ := by
    rw [← Registry.getD_of_find? hl, h.linked, List.append_nil]
  have hafter : linked.after FloatMath.negInfinity = processed := by
    have hs : linked.points = [] ++ processed := by rw [hseries]; rfl
    exact Series.after_eq hs (by simp) fun p hp => h.started p (List.mem_append_left [] hp)
  obtain ⟨s, hrows, hs⟩ := h.evaluated
  obtain ⟨hx, hlen⟩ := rows_of_evaluateAll hrows
  obtain ⟨s', hrows', hs'⟩ := Session.evaluateAll_done_of_core_eq
    (Session.core_checkpoint fresh.evaluator).symm hrows
  let u : Transform Session := { fresh with mark := FloatMath.negInfinity, replaces := true }
  have heval : u.evaluateAll (fresh.slotted.channels.map r.getD) (Evaluator.checkpoint u.evaluator)
      (linked.after u.mark) = (s', .done rows) := by
    rw [evaluateAll_congr (t := u) (u := fresh) rfl rfl, hafter]
    exact hrows'
  -- The outputs are replaced by the columns that they hold already.
  have hwritten : writeOutputs true ⟨rows, linked.bound⟩ 0 fresh.outputs r = r := by
    refine NameMap.ext_find? fun q => ?_
    by_cases hq : q ∈ fresh.outputs
    · obtain ⟨i, hi⟩ := List.mem_iff_getElem?.mp hq
      have hsize : ∀ row ∈ [] ++ rows, i < row.2.length := by
        intro row hrow
        rw [hlen row hrow]
        exact lt_arity_of_output hi
      have hcolumn := writeOutput_column (show ([] ++ rows).map Prod.fst = _ from hx)
        (ascending_append_left h.ascending) hsize
      rw [find?_writeOutputs h.distinct hi, Nat.zero_add, writeOutput_replacing, hholds i q hi,
        hseries]
      exact congrArg some hcolumn
    · exact find?_writeOutputs_of_not_mem hq
  have hupdate := update_of_evaluateAll (t := u) hl hc heval
  have hregistry : writeOutputs u.replaces ⟨rows, linked.bound⟩ 0 u.outputs r = r := hwritten
  have hpending : linked.after u.mark = processed := hafter
  rw [hregistry, hpending] at hupdate
  rw [register_of_present hpresent]
  exact ⟨_, _, hupdate, h.mark.symm, hs'.trans hs⟩

/-- Every run keeps the transform in step with the freshly compiled one. -/
theorem of_run {d : Definition} {limits : Limits} (h : IncrementalRun d limits t r count) :
    ∃ s fresh processed pending rows, compile d (Session.new limits) = (s, .done fresh) ∧
      InStep fresh t r count processed pending rows := by
  induction h with
  | start hc apart unbounded ascending later =>
    exact ⟨_, _, _, _, _, hc, of_register hc apart unbounded ascending later⟩
  | @push t r count name p _ hn hp ih =>
    obtain ⟨s, fresh, processed, pending, rows, hc, h⟩ := ih
    have hn : name ∈ fresh.inputs := by
      simpa only [inputs, h.signal.definition, h.signal.slotted] using hn
    obtain ⟨pending', h'⟩ := h.push hn hp
    exact ⟨s, fresh, processed, pending', rows, hc, h'⟩
  | @elsewhere t r r' count _ hin hout ih =>
    obtain ⟨s, fresh, processed, pending, rows, hc, h⟩ := ih
    simp only [inputs, h.signal.definition, h.signal.slotted, h.signal.outputs] at hin hout
    exact ⟨s, fresh, processed, pending, rows, hc, h.elsewhere hin hout⟩
  | @updated t r count t' r' n _ hu ih =>
    obtain ⟨s, fresh, processed, pending, rows, hc, h⟩ := ih
    cases hl : r.find? fresh.definition.linked with
    | none => exact ⟨s, fresh, processed, pending, rows, hc, h.updated_absent hl hu⟩
    | some linked =>
      obtain ⟨rows', h', -⟩ := h.updated_found hl hu
      exact ⟨s, fresh, _, _, rows', hc, h'⟩
  | failed _ hu ih =>
    obtain ⟨s, fresh, processed, pending, rows, hc, h⟩ := ih
    exact ⟨s, fresh, processed, pending, rows, hc, h.failed hu⟩

end InStep

/-- After a successful update of a run, registry, mark and variables are what a single update of the
freshly compiled and registered signal makes of that registry, and every sample has been counted
once. -/
theorem incremental_eq_single_update {d : Definition} {limits : Limits} {t t' : Transform Session}
    {r r' : Registry} {count n : Nat} {linked : Series} (h : IncrementalRun d limits t r count)
    (hl : r.find? d.linked = some linked) (hu : t.update r = (t', r', .done n)) :
    ∃ s fresh, compile d (Session.new limits) = (s, .done fresh) ∧
      (∃ u m, (fresh.register r').1.update (fresh.register r').2 = (u, r', .done m) ∧
        u.mark = t'.mark ∧ u.evaluator.globals = t'.evaluator.globals) ∧
      (t'.outputs ≠ [] → count + n = (r'.getD d.linked).size) := by
  obtain ⟨s, fresh, processed, pending, rows, hc, hstep⟩ := InStep.of_run h
  obtain rfl := (compiles_of_done hc).definition
  obtain ⟨rows', hstep', hholds, hl', hc'⟩ := hstep.updated_found hl hu
  obtain ⟨u, m, hupdate, hmark, hcore⟩ := hstep'.fresh_update hholds hl' hc'
  have hglobals := ((Session.core_eq_iff _ _).mp hcore).2.1
  refine ⟨s, fresh, hc, ⟨u, m, hupdate, hmark, hglobals⟩, fun hne => ?_⟩
  rw [hstep'.signal.outputs] at hne
  rw [hstep'.count hne, hstep'.linked, List.append_nil]
  rfl

/-- A counter and a channel that is missing at first: one update fails, one evaluates the first sample,
and one the second. -/
theorem incremental_eq_single_update_counter :
    ∃ (s : Session) (fresh t' : Transform Session) (r' : Registry),
      let d : Definition := ⟨"f", "x", "let n = 0;", "n += 1; n * $$a$$"⟩
      compile d (Session.new {}) = (s, .done fresh) ∧
      (∃ t r, IncrementalRun d {} t r 1 ∧ t.update r = (t', r', .done 1)) ∧
      (∃ u m, (fresh.register r').1.update (fresh.register r').2 = (u, r', .done m) ∧
        u.mark = t'.mark ∧ u.evaluator.globals = t'.evaluator.globals) ∧
      (r'.getD "x").size = 2 := by
  let d : Definition := ⟨"f", "x", "let n = 0;", "n += 1; n * $$a$$"⟩
  let r : Registry := NameMap.empty.insert "x" ⟨[⟨0, 1⟩], none⟩
  let one (t : Transform Session) := (t.register r).1.update (t.register r).2
  let two (u : Transform Session × Registry × Attempt Nat) :=
    u.1.update (u.2.1.insert "a" ((u.2.1.getD "a").push ⟨0, 10⟩))
  let three (u : Transform Session × Registry × Attempt Nat) :=
    u.1.update (u.2.1.insert "x" ((u.2.1.getD "x").push ⟨1, 1⟩))
  obtain ⟨s, t, hc, apart, unbounded, ascending, hone, ha, hm₁, htwo, hx, hm₂, hthree, hne⟩ :
      ∃ s t, compile d (Session.new {}) = (s, .done t) ∧ (∀ q ∈ t.inputs, q ∉ t.outputs) ∧
        (∀ q ∈ t.inputs, (r.getD q).bound = none) ∧ (∀ q ∈ t.inputs, Ascending (r.getD q).points) ∧
        (one t).2.2 = .failed (.missingChannel "a") ∧ "a" ∈ (one t).1.inputs ∧
        (one t).1.mark < 0 ∧ (two (one t)).2.2 = .done 1 ∧ "x" ∈ (two (one t)).1.inputs ∧
        (two (one t)).1.mark < 1 ∧ (three (two (one t))).2.2 = .done 1 ∧
        (three (two (one t))).1.outputs ≠ [] :=
    exists_compile_of_any (by decide +kernel)
  have hlow : FloatMath.negInfinity < 0 := of_decide_eq_true (by decide +kernel)
  have hpoints : (r.getD d.linked).points = [⟨0, 1⟩] := rfl
  have hstart : IncrementalRun d {} (t.register r).1 (t.register r).2 0 := by
    refine .start hc apart unbounded ascending ?_
    rw [hpoints]
    exact List.forall_mem_singleton.mpr hlow
  generalize h₁ : one t = u₁ at *
  generalize h₂ : two u₁ = u₂ at *
  generalize h₃ : three u₂ = u₃ at *
  have hfailed := hstart.failed (h₁.trans (eq_of_outcome hone))
  have hfirst := (IncrementalRun.push (p := ⟨0, 10⟩) hfailed ha hm₁).updated
    (h₂.trans (eq_of_outcome htwo))
  have hpushed := IncrementalRun.push (p := ⟨1, 1⟩) hfirst hx hm₂
  have hu := h₃.trans (eq_of_outcome hthree)
  have hl := NameMap.find?_insert u₂.2.1 "x" d.linked ((u₂.2.1.getD "x").push ⟨1, 1⟩)
  rw [if_pos rfl] at hl
  obtain ⟨s', fresh, hc', hsame, hcount⟩ := incremental_eq_single_update hpushed hl hu
  exact ⟨s', fresh, u₃.1, u₃.2.1, hc', ⟨_, _, hpushed, hu⟩, hsame, (hcount hne).symm⟩

end DerivedSignal
