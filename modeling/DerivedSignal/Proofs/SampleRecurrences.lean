import DerivedSignal.Proofs.IncrementalRun
import DerivedSignal.Proofs.SlotAssignment

namespace DerivedSignal

open Transform

/-- The scripts of a snippet compute `output`: the session `behind p n` has seen the `n` first samples,
gives `output p n` for the next one, and can be started over at any time. -/
structure Snippet.Computes (s : Snippet) (output : (ℕ → Point) → ℕ → Float)
    (behind : (ℕ → Point) → ℕ → Session) : Prop where
  undelimited : Template.Undelimited s.equation.toList
  loads : ∃ loaded, Evaluator.loadGlobals (Session.new {}) s.globals = (loaded, .done ()) ∧
    ∀ p, Evaluator.bind loaded s.equation = (behind p 0, .done ())
  calls : ∀ p n, Evaluator.call (behind p n) (p n).x (p n).y [] =
    (behind p (n + 1), .done (.number (output p n)))
  resets : ∀ p n q, Evaluator.reset (behind p n) = (behind q 0, .done ())

theorem InStep.exists_update {fresh t : Transform Session} {r : Registry} {count : ℕ}
    {processed pending : List Point} {rows : List (Float × List Float)}
    (h : InStep fresh t r count processed pending rows)
    (hc : Alignment.resolve r fresh.slotted.channels = .ok (fresh.slotted.channels.map r.getD)) {s : Session}
    {all : List (Float × List Float)} (hall : fresh.evaluateAll (fresh.slotted.channels.map r.getD)
      fresh.evaluator (processed ++ pending) = (s, .done all)) :
    ∃ t' r' n, t.update r = (t', r', .done n) := by
  have hsignal := h.signal
  cases hl : r.find? t.definition.linked with
  | none =>
    rw [update, evaluate_of_absent hl]
    exact ⟨_, _, _, rfl⟩
  | some linked =>
    have hseries : linked = ⟨processed ++ pending, none⟩ := by
      rw [← Registry.getD_of_find? hl, hsignal.definition, h.linked]
    have hafter : linked.after t.mark = pending := Series.after_eq (by rw [hseries]) h.before h.later
    obtain ⟨s₀, hrows, hs₀⟩ := h.evaluated
    rw [evaluateAll_append hrows] at hall
    obtain ⟨more, hmore, -⟩ := Attempt.of_map_eq_done (Prod.mk.inj hall).2
    have hcheck : s₀.core = (Evaluator.checkpoint t.evaluator).core := hs₀
    obtain ⟨s', hpending, -⟩ := Session.evaluateAll_done_of_core_eq hcheck (Prod.ext rfl hmore)
    rw [evaluateAll_congr hsignal.shape.symm hsignal.definition.symm, ← hafter] at hpending
    rw [← hsignal.slotted] at hc hpending
    exact ⟨_, _, _, update_of_evaluateAll hl hc hpending⟩

theorem exists_sequence (ps : List Point) : ∃ p, (List.range ps.length).map p = ps := by
  refine ⟨fun i => ps.getD i ⟨0, 0⟩, List.ext_getElem (by simp) fun i _ hi => ?_⟩
  rw [List.getElem_map, List.getElem_range, List.getD_eq_getElem _ _ hi]

namespace Snippet.Computes

variable {s : Snippet} {output : (ℕ → Point) → ℕ → Float} {behind : (ℕ → Point) → ℕ → Session}

theorem evaluateAll_range' (h : s.Computes output behind) {t : Transform Session} (ht : t.shape = .scalar)
    (p : ℕ → Point) (k n : ℕ) :
    t.evaluateAll [] (behind p k) ((List.range' k n).map p) =
      (behind p (k + n), .done ((List.range' k n).map fun i => ((p i).x, [output p i]))) := by
  induction n generalizing k with
  | zero => rfl
  | succ n ih =>
    have hextract : t.extract (p k).x (.number (output p k)) = .ok [output p k] := by
      rw [Transform.extract, ht]
      rfl
    have halign : Alignment.align [] (p k).x = [] := rfl
    rw [List.range'_succ, List.map_cons, evaluateAll_cons, halign, h.calls p k]
    simp only [hextract, ih, Attempt.map, List.map_cons]
    rw [Nat.add_right_comm, Nat.add_assoc]

theorem compile_eq (h : s.Computes output behind) (linked : String) (p : ℕ → Point) :
    compile (s.instantiate linked) (Session.new {}) = (behind p 0, .done
      ⟨s.instantiate linked, ⟨s.equation, []⟩, .scalar, behind p 0, FloatMath.negInfinity, [], true⟩) := by
  obtain ⟨loaded, hload, hbind⟩ := h.loads
  have hslots : Template.assignSlots (s.instantiate linked).expression (s.instantiate linked).linked =
      .ok ⟨s.equation, []⟩ := Template.assignSlots_of_undelimited h.undelimited linked
  have hglobals : (s.instantiate linked).globals = s.globals := rfl
  have htrial := h.calls (fun _ => ⟨0, 1⟩) 0
  rw [compile, hslots, hglobals, hload]
  simp only [hbind fun _ => ⟨0, 1⟩, List.map_nil, htrial, OutputShape.ofReading, h.resets _ _ p]

/-- The transform of the snippet, whatever the samples are that it will see. -/
theorem compiled (h : s.Computes output behind) {linked : String} {start : Session} {fresh : Transform Session}
    (hc : compile (s.instantiate linked) (Session.new {}) = (start, .done fresh)) :
    fresh.outputs = [s.name] ∧ fresh.slotted.channels = [] ∧ ∀ p size, ∃ s',
      fresh.evaluateAll [] fresh.evaluator ((List.range size).map p) =
        (s', .done ((List.range size).map fun i => ((p i).x, [output p i]))) := by
  refine ⟨?_, ?_, fun p size => ?_⟩
  · cases (h.compile_eq linked fun _ => ⟨0, 1⟩).symm.trans hc
    rfl
  · cases (h.compile_eq linked fun _ => ⟨0, 1⟩).symm.trans hc
    rfl
  · cases (h.compile_eq linked p).symm.trans hc
    rw [List.range_eq_range']
    exact ⟨_, h.evaluateAll_range' rfl p 0 size⟩

/-- There is a run for any samples in the order of time. -/
theorem exists_run (h : s.Computes output behind) {linked : String} (hname : linked ≠ s.name)
    {points : List Point} (hascending : Ascending points)
    (hlater : ∀ p ∈ points, FloatMath.negInfinity < p.x) :
    ∃ t r, IncrementalRun (s.instantiate linked) {} t r 0 ∧ r.find? linked = some ⟨points, none⟩ := by
  have hc := h.compile_eq linked fun _ => ⟨0, 0⟩
  let r : Registry := NameMap.empty.insert linked ⟨points, none⟩
  have hfind : r.find? linked = some ⟨points, none⟩ := by rw [NameMap.find?_insert, if_pos rfl]
  have hgetD : r.getD linked = ⟨points, none⟩ := Registry.getD_of_find? hfind
  refine ⟨_, _, .start (r := r) hc ?_ ?_ ?_ ?_, ?_⟩
  · exact List.forall_mem_singleton.mpr (List.not_mem_cons_of_ne_of_not_mem hname List.not_mem_nil)
  · exact List.forall_mem_singleton.mpr (congrArg Series.bound hgetD)
  · exact List.forall_mem_singleton.mpr ((congrArg Series.points hgetD).symm ▸ hascending)
  · exact (congrArg Series.points hgetD).symm ▸ hlater
  · rw [find?_register, if_neg fun hnone => by simp [hfind] at hnone, hfind]

/-- Every update of a run succeeds and leaves in the output a point for each linked sample. -/
theorem update_run (h : s.Computes output behind) {linked : String} {t : Transform Session} {r : Registry}
    {count : ℕ} (hrun : IncrementalRun (s.instantiate linked) {} t r count) :
    ∃ t' r' n, t.update r = (t', r', .done n) ∧
      ∀ series p size, r.find? linked = some series → series.points = (List.range size).map p →
        r'.find? s.name = some ⟨(List.range size).map fun i => ⟨(p i).x, output p i⟩, none⟩ := by
  obtain ⟨_, fresh, processed, pending, rows, hc, hstep⟩ := InStep.of_run hrun
  obtain ⟨houtputs, hchannels, hsamples⟩ := h.compiled hc
  have hnone : ∀ r : Registry, fresh.slotted.channels.map r.getD = [] := by simp [hchannels]
  have hresolve : Alignment.resolve r fresh.slotted.channels = .ok (fresh.slotted.channels.map r.getD) := by
    rw [hchannels]
    rfl
  obtain ⟨p₀, hp₀⟩ := exists_sequence (processed ++ pending)
  obtain ⟨s', hall⟩ := hsamples p₀ (processed ++ pending).length
  rw [hp₀, ← hnone r] at hall
  obtain ⟨t', r', n, hu⟩ := hstep.exists_update hresolve hall
  refine ⟨t', r', n, hu, fun series p size hl hp => ?_⟩
  have hdefinition := (compiles_of_done hc).definition
  have hlinked : fresh.definition.linked = linked := congrArg Definition.linked hdefinition
  rw [← hlinked] at hl
  obtain ⟨rows', hstep', hholds, -⟩ := hstep.updated_found hl hu
  have hpoints : processed ++ pending = (List.range size).map p := by
    rw [← hp, ← Registry.getD_of_find? hl, hstep.linked]
  obtain ⟨s₁, hrows, -⟩ := hstep'.evaluated
  obtain ⟨s₂, hvalues⟩ := hsamples p size
  rw [hnone, hpoints, hvalues] at hrows
  cases hrows
  rw [hholds 0 s.name (by rw [houtputs]; rfl)]
  simp [Pass.column]

end Snippet.Computes

end DerivedSignal
