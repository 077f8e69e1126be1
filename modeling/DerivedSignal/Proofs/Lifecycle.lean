import DerivedSignal.Proofs.Compilation
import DerivedSignal.Proofs.OutputSeries
import DerivedSignal.Proofs.PassEvaluation

namespace DerivedSignal

variable {σ : Type} [Evaluator σ]

namespace Transform

/-- A pass drives the evaluator from a checkpoint and then takes over or undoes what came of it. -/
def IsPass (t : Transform σ) (r : Registry) (result : Transform σ × Registry × Attempt Nat) : Prop :=
  ∃ s replace outcome, Driven (Evaluator.checkpoint t.evaluator) s ∧
    result = { t with evaluator := s }.finish r replace outcome

omit [Evaluator σ] in
theorem eq_of_outcome {result : Transform σ × Registry × Attempt Nat} {outcome : Attempt Nat}
    (h : result.2.2 = outcome) : result = (result.1, result.2.1, outcome) := by
  rw [← h]

theorem finish_done (t : Transform σ) (s : σ) (r : Registry) (replace : Bool) (p : Pass) :
    { t with evaluator := s }.finish r replace (.done (some p)) =
      (⟨t.definition, t.slotted, t.shape, s,
          p.last?.getD (if replace then FloatMath.negInfinity else t.mark), [], false⟩,
        writeOutputs replace p 0 t.outputs r,
        .done (if t.outputs = [] then 0 else p.samples.length)) := by
  simp only [finish, commit, List.isEmpty_iff]
  cases p.last? <;> rfl

theorem update_of_evaluateAll {t : Transform σ} {r : Registry} {linked : Series}
    {channels : List Series} {s : σ} {rows : List (Float × List Float)}
    (hl : r.find? t.definition.linked = some linked)
    (hc : Alignment.resolve r t.slotted.channels = .ok channels)
    (hs : t.evaluateAll channels (Evaluator.checkpoint t.evaluator) (linked.after t.mark) =
      (s, .done rows)) :
    t.update r =
      (⟨t.definition, t.slotted, t.shape, s, ((linked.after t.mark).getLast?.map (·.x)).getD
          (if t.replaces then FloatMath.negInfinity else t.mark), [], false⟩,
        writeOutputs t.replaces ⟨rows, linked.bound⟩ 0 t.outputs r,
        .done (if t.outputs = [] then 0 else (linked.after t.mark).length)) := by
  rw [update, evaluate_of_found hl hc, hs, ← last?_of_evaluateAll hs linked.bound,
    ← length_of_evaluateAll hs]
  exact finish_done t s r t.replaces ⟨rows, linked.bound⟩

/-- An evaluation that finds the linked series and succeeds has found the channels too. -/
theorem evaluateAll_of_evaluate {t : Transform σ} {r : Registry} {linked : Series} {mark : Float}
    {s s' : σ} {found : Option Pass} (hl : r.find? t.definition.linked = some linked)
    (h : t.evaluate r mark s = (s', .done found)) :
    ∃ channels rows, Alignment.resolve r t.slotted.channels = .ok channels ∧
      t.evaluateAll channels s (linked.after mark) = (s', .done rows) ∧
      found = some ⟨rows, linked.bound⟩ := by
  cases hc : Alignment.resolve r t.slotted.channels with
  | error e =>
    rw [evaluate_of_unresolved hl hc] at h
    cases h
  | ok channels =>
    rw [evaluate_of_found hl hc] at h
    obtain ⟨hs, hdone⟩ := Prod.mk.inj h
    obtain ⟨rows, hrows, rfl⟩ := Attempt.of_map_eq_done hdone
    exact ⟨channels, rows, rfl, Prod.ext hs hrows, rfl⟩

theorem evaluate_of_update {t t' : Transform σ} {r r' : Registry} {n : Nat}
    (hu : t.update r = (t', r', .done n)) :
    ∃ s found, t.evaluate r t.mark (Evaluator.checkpoint t.evaluator) = (s, .done found) ∧
      { t with evaluator := s }.finish r t.replaces (.done found) = (t', r', .done n) := by
  unfold update at hu
  cases he : t.evaluate r t.mark (Evaluator.checkpoint t.evaluator) with
  | mk s outcome =>
    rw [he] at hu
    cases outcome with
    | abort why => cases hu
    | failed e => cases hu
    | done found => exact ⟨s, found, rfl, hu⟩

theorem evaluateAll_of_update {t t' : Transform σ} {r r' : Registry} {linked : Series} {n : Nat}
    (hl : r.find? t.definition.linked = some linked) (hu : t.update r = (t', r', .done n)) :
    ∃ channels s rows, Alignment.resolve r t.slotted.channels = .ok channels ∧
      t.evaluateAll channels (Evaluator.checkpoint t.evaluator) (linked.after t.mark) =
        (s, .done rows) := by
  obtain ⟨s, found, he, -⟩ := evaluate_of_update hu
  obtain ⟨channels, rows, hc, hrows, -⟩ := evaluateAll_of_evaluate hl he
  exact ⟨channels, s, rows, hc, hrows⟩

theorem isPass_update (t : Transform σ) (r : Registry) : t.IsPass r (t.update r) :=
  ⟨_, _, _, driven_evaluate t r t.mark Driven.refl, rfl⟩

theorem rebuild_of_absent {t : Transform σ} {r : Registry}
    (h : r.find? t.definition.linked = none) :
    t.rebuild r = ({ t with staged := [] }, r, .done 0) := by
  have hc := (Registry.contains_eq_false_iff r t.definition.linked).mpr h
  simp [rebuild, hc]

theorem rebuild_of_reset {t : Transform σ} {r : Registry} {linked : Series} {s : σ}
    (hl : r.find? t.definition.linked = some linked)
    (hr : Evaluator.reset (Evaluator.checkpoint t.evaluator) = (s, .done ())) :
    t.rebuild r = { t with evaluator := (t.evaluate r FloatMath.negInfinity s).1 }.finish r true
      (t.evaluate r FloatMath.negInfinity s).2 := by
  have hc := (Registry.contains_eq_true_iff r t.definition.linked).mpr ⟨linked, hl⟩
  rw [rebuild, if_pos hc, hr]

theorem evaluate_of_rebuild {t t' : Transform σ} {r r' : Registry} {linked : Series} {n : Nat}
    (hl : r.find? t.definition.linked = some linked) (hu : t.rebuild r = (t', r', .done n)) :
    ∃ s s' found, Evaluator.reset (Evaluator.checkpoint t.evaluator) = (s, .done ()) ∧
      t.evaluate r FloatMath.negInfinity s = (s', .done found) ∧
      { t with evaluator := s' }.finish r true (.done found) = (t', r', .done n) := by
  have hc := (Registry.contains_eq_true_iff r t.definition.linked).mpr ⟨linked, hl⟩
  unfold rebuild at hu
  rw [if_pos hc] at hu
  split at hu
  next s hreset =>
    cases he : t.evaluate r FloatMath.negInfinity s with
    | mk s' outcome =>
      rw [he] at hu
      cases outcome with
      | abort why => cases hu
      | failed e => cases hu
      | done found => exact ⟨s, s', found, hreset, he, hu⟩
  next => cases hu
  next => cases hu

/-- How a rebuild ends that has succeeded. -/
theorem finish_of_rebuild {t t' : Transform σ} {r r' : Registry} {linked : Series} {n : Nat}
    (hl : r.find? t.definition.linked = some linked) (hu : t.rebuild r = (t', r', .done n)) :
    ∃ channels s s' rows,
      t.evaluateAll channels s (linked.after FloatMath.negInfinity) = (s', .done rows) ∧
      (t', r', .done n) = { t with evaluator := s' }.finish r true (.done (some ⟨rows, linked.bound⟩)) := by
  obtain ⟨s, s', found, -, he, hfinish⟩ := evaluate_of_rebuild hl hu
  obtain ⟨channels, rows, -, hrows, rfl⟩ := evaluateAll_of_evaluate hl he
  exact ⟨channels, s, s', rows, hrows, hfinish.symm⟩

/-- The registry after a rebuild that has succeeded. -/
theorem registry_of_rebuild {t t' : Transform σ} {r r' : Registry} {linked : Series} {n : Nat}
    (hl : r.find? t.definition.linked = some linked) (hu : t.rebuild r = (t', r', .done n)) :
    ∃ channels s s' rows,
      t.evaluateAll channels s (linked.after FloatMath.negInfinity) = (s', .done rows) ∧
      r' = writeOutputs true ⟨rows, linked.bound⟩ 0 t.outputs r := by
  obtain ⟨channels, s, s', rows, hrows, hfinish⟩ := finish_of_rebuild hl hu
  rw [finish_done] at hfinish
  cases hfinish
  exact ⟨channels, s, s', rows, hrows, rfl⟩

theorem isPass_rebuild {t : Transform σ} {r : Registry} {linked : Series}
    (h : r.find? t.definition.linked = some linked) : t.IsPass r (t.rebuild r) := by
  have hc := (Registry.contains_eq_true_iff r t.definition.linked).mpr ⟨linked, h⟩
  have hd : Driven (Evaluator.checkpoint t.evaluator) (Evaluator.reset _).1 := Driven.refl.reset
  unfold rebuild
  rw [if_pos hc]
  split
  next s hr =>
    rw [hr] at hd
    exact ⟨_, _, _, driven_evaluate t r FloatMath.negInfinity hd, rfl⟩
  next s e hr =>
    rw [hr] at hd
    exact ⟨_, _, _, hd, rfl⟩
  next s hr =>
    rw [hr] at hd
    exact ⟨_, _, _, hd, rfl⟩

theorem of_failed_isPass {t t' : Transform σ} {r r' : Registry} {e : Error}
    (h : t.IsPass r (t', r', .failed e)) :
    ∃ s, Driven (Evaluator.checkpoint t.evaluator) s ∧
      t' = { t with evaluator := Evaluator.restore s, staged := [] } ∧
      r' = t.staged.foldl (fun r name => r.erase name) r := by
  obtain ⟨s, replace, outcome, hs, he⟩ := h
  cases outcome with
  | abort why => cases he
  | failed e' => cases he; exact ⟨s, hs, rfl, rfl⟩
  | done p => cases p <;> cases he

theorem isPass_of_failed {t t' : Transform σ} {r r' : Registry} {e : Error}
    (h : t.update r = (t', r', .failed e) ∨ t.rebuild r = (t', r', .failed e)) :
    t.IsPass r (t', r', .failed e) := by
  rcases h with h | h
  · exact h ▸ isPass_update t r
  · cases hl : r.find? t.definition.linked with
    | none =>
      rw [rebuild_of_absent hl] at h
      cases h
    | some linked => exact h ▸ isPass_rebuild hl

/-- A pass leaves all series alone but the outputs and what is staged. -/
theorem find?_of_isPass {t t' : Transform σ} {r r' : Registry} {outcome : Attempt Nat}
    (h : t.IsPass r (t', r', outcome)) {q : String} (hq : q ∉ t.outputs) (hstaged : q ∉ t.staged) :
    r'.find? q = r.find? q := by
  obtain ⟨s, replace, found, -, he⟩ := h
  cases found with
  | abort why =>
    cases he
    rfl
  | failed e =>
    cases he
    exact (Registry.find?_eraseAll t.staged r q).trans (if_neg hstaged)
  | done p =>
    cases p with
    | none =>
      cases he
      rfl
    | some p =>
      cases he
      exact find?_writeOutputs_of_not_mem hq

/-- Fields that no operation changes. -/
structure SameSignal (t t' : Transform σ) : Prop where
  definition : t'.definition = t.definition
  slotted : t'.slotted = t.slotted
  shape : t'.shape = t.shape

omit [Evaluator σ] in
theorem SameSignal.trans {t t' t'' : Transform σ} (h : SameSignal t t') (h' : SameSignal t' t'') :
    SameSignal t t'' :=
  ⟨h'.definition.trans h.definition, h'.slotted.trans h.slotted, h'.shape.trans h.shape⟩

omit [Evaluator σ] in
theorem SameSignal.outputs {t t' : Transform σ} (h : SameSignal t t') : t'.outputs = t.outputs := by
  simp only [Transform.outputs, h.definition, h.shape]

theorem sameSignal_finish (t : Transform σ) (r : Registry) (replace : Bool)
    (outcome : Attempt (Option Pass)) : SameSignal t (t.finish r replace outcome).1 := by
  unfold finish
  split <;> exact ⟨rfl, rfl, rfl⟩

theorem sameSignal_of_isPass {t : Transform σ} {r : Registry}
    {result : Transform σ × Registry × Attempt Nat} (h : t.IsPass r result) :
    SameSignal t result.1 := by
  obtain ⟨s, replace, outcome, -, rfl⟩ := h
  obtain ⟨hd, hl, hs⟩ := sameSignal_finish { t with evaluator := s } r replace outcome
  exact ⟨hd, hl, hs⟩

theorem sameSignal_update (t : Transform σ) (r : Registry) : SameSignal t (t.update r).1 :=
  sameSignal_of_isPass (isPass_update t r)

theorem sameSignal_of_update {t t' : Transform σ} {r r' : Registry} {outcome : Attempt Nat}
    (h : t.update r = (t', r', outcome)) : SameSignal t t' := by
  have hsame := sameSignal_update t r
  rwa [h] at hsame

theorem sameSignal_rebuild (t : Transform σ) (r : Registry) : SameSignal t (t.rebuild r).1 := by
  cases h : r.find? t.definition.linked with
  | none =>
    rw [rebuild_of_absent h]
    exact ⟨rfl, rfl, rfl⟩
  | some linked => exact sameSignal_of_isPass (isPass_rebuild h)

theorem staged_of_isPass {t t' : Transform σ} {r r' : Registry} {outcome : Attempt Nat}
    (h : t.IsPass r (t', r', outcome)) (hn : outcome.Returns) : t'.staged = [] := by
  obtain ⟨s, replace, found, -, he⟩ := h
  cases found with
  | abort why => cases he; exact hn.elim
  | failed e => cases he; rfl
  | done p =>
    cases p <;> cases he <;> rfl

theorem staged_update {t t' : Transform σ} {r r' : Registry} {outcome : Attempt Nat}
    (h : t.update r = (t', r', outcome)) (hn : outcome.Returns) : t'.staged = [] :=
  staged_of_isPass (h ▸ isPass_update t r) hn

theorem staged_rebuild {t t' : Transform σ} {r r' : Registry} {outcome : Attempt Nat}
    (h : t.rebuild r = (t', r', outcome)) (hn : outcome.Returns) : t'.staged = [] := by
  cases hl : r.find? t.definition.linked with
  | none =>
    rw [rebuild_of_absent hl] at h
    cases h
    rfl
  | some linked => exact staged_of_isPass (h ▸ isPass_rebuild hl) hn

end Transform

/-- The states of a transform and of the registry from its compilation on, with the outputs that
`register` created since the last pass. In between others change the registry as `outside` allows. -/
inductive Lifecycle (d : Definition) (start : σ) (outside : Registry → Registry → Prop) :
    Transform σ → Registry → List String → Prop
  | compiled {s t} (r : Registry) : Transform.compile d start = (s, .done t) →
      Lifecycle d start outside t r []
  | elsewhere {t r r' created} : Lifecycle d start outside t r created → outside r r' →
      Lifecycle d start outside t r' created
  | register {t r created} : Lifecycle d start outside t r created →
      Lifecycle d start outside (t.register r).1 (t.register r).2
        (created ++ t.outputs.filter fun name => !r.contains name)
  | update {t r created t' r' outcome} : Lifecycle d start outside t r created →
      t.update r = (t', r', outcome) → outcome.Returns → Lifecycle d start outside t' r' []
  | rebuild {t r created t' r' outcome} : Lifecycle d start outside t r created →
      t.rebuild r = (t', r', outcome) → outcome.Returns → Lifecycle d start outside t' r' []

namespace Lifecycle

open Transform

variable {d : Definition} {start : σ} {outside : Registry → Registry → Prop}
  {t : Transform σ} {r : Registry} {created : List String}

theorem mem_missing {names : List String} {r : Registry} {q : String} :
    q ∈ names.filter (fun name => !r.contains name) ↔ q ∈ names ∧ r.find? q = none := by
  simp [Registry.contains_eq_false_iff]

theorem sameSignal (h : Lifecycle d start outside t r created) {s : σ} {fresh : Transform σ}
    (hc : compile d start = (s, .done fresh)) : SameSignal fresh t := by
  induction h with
  | compiled r ht =>
    cases hc.symm.trans ht
    exact ⟨rfl, rfl, rfl⟩
  | elsewhere _ _ ih => exact ih
  | register _ ih => exact ih.trans ⟨rfl, rfl, rfl⟩
  | @update t r created t' r' outcome _ hu _ ih =>
    have hs := sameSignal_update t r
    rw [hu] at hs
    exact ih.trans hs
  | @rebuild t r created t' r' outcome _ hu _ ih =>
    have hs := sameSignal_rebuild t r
    rw [hu] at hs
    exact ih.trans hs

theorem mem_staged_iff (h : Lifecycle d start outside t r created) (q : String) :
    q ∈ t.staged ↔ q ∈ created := by
  induction h with
  | compiled r hc => simp [(compiles_of_done hc).staged]
  | elsewhere _ _ ih => exact ih
  | register _ ih => rw [mem_staged_register, ih, List.mem_append, mem_missing]
  | update _ hu hn _ => simp [staged_update hu hn]
  | rebuild _ hu hn _ => simp [staged_rebuild hu hn]

/-- An output created since the last pass is still empty, unless somebody else has changed it. -/
theorem find?_created (h : Lifecycle d start outside t r created)
    (others : ∀ r r', outside r r' → ∀ q ∈ t.outputs, r'.find? q = r.find? q) :
    ∀ q ∈ created, q ∈ t.outputs ∧ r.find? q = some Series.empty := by
  induction h with
  | compiled r hc => simp
  | elsewhere _ hr ih =>
    intro q hq
    obtain ⟨hm, he⟩ := ih others q hq
    exact ⟨hm, (others _ _ hr q hm).trans he⟩
  | @register t r created _ ih =>
    intro q hq
    have hr := find?_register t r q
    rcases List.mem_append.mp hq with hq | hq
    · -- An output that was created before is not missing, so that it stays as it is.
      obtain ⟨hm, he⟩ := ih others q hq
      exact ⟨hm, by simpa [he] using hr⟩
    · obtain ⟨hm, he⟩ := mem_missing.mp hq
      exact ⟨hm, by simpa [he, hm] using hr⟩
  | update _ hu hn _ => simp
  | rebuild _ hu hn _ => simp

end Lifecycle

end DerivedSignal
