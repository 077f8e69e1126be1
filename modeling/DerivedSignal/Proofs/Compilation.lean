import DerivedSignal.Transform

namespace DerivedSignal

theorem Attempt.of_map_eq_done {α β : Type} {f : α → β} {a : Attempt α} {b : β}
    (h : a.map f = .done b) : ∃ x, a = .done x ∧ f x = b := by
  cases a with
  | abort why => cases h
  | failed e => cases h
  | done x => exact ⟨x, rfl, by cases h; rfl⟩

variable {σ : Type} [Evaluator σ]

/-- The steps of a successful compilation on the evaluator `start`. -/
structure Compiles (d : Definition) (start : σ) (t : Transform σ) : Prop where
  slots : Template.assignSlots d.expression d.linked = .ok t.slotted
  steps : ∃ loaded bound probed value,
    Evaluator.loadGlobals start d.globals = (loaded, .done ()) ∧
    Evaluator.bind loaded t.slotted.text = (bound, .done ()) ∧
    Evaluator.call bound 0 1 (t.slotted.channels.map fun _ => 1) = (probed, .done value) ∧
    OutputShape.ofReading value = .ok t.shape ∧
    Evaluator.reset probed = (t.evaluator, .done ())
  definition : t.definition = d
  mark : t.mark = FloatMath.negInfinity
  staged : t.staged = []
  replaces : t.replaces = true

theorem compiles_of_done {d : Definition} {start s : σ} {t : Transform σ}
    (h : Transform.compile d start = (s, .done t)) : Compiles d start t := by
  unfold Transform.compile at h
  split at h
  next => cases h
  next slotted hslots =>
    split at h
    next => cases h
    next => cases h
    next loaded hload =>
      split at h
      next => cases h
      next => cases h
      next bound hbind =>
        split at h
        next => cases h
        next => cases h
        next probed value hcall =>
          split at h
          next => cases h
          next shape hshape =>
            split at h
            next => cases h
            next => cases h
            next s' hreset =>
              cases h
              exact ⟨hslots, ⟨loaded, bound, probed, value, hload, hbind, hcall, hshape, hreset⟩,
                rfl, rfl, rfl, rfl⟩

/-- The transform of a definition that compiles. -/
def Transform.compiled? (d : Definition) (start : σ) : Option (Transform σ) :=
  match Transform.compile d start with
  | (_, .done t) => some t
  | _ => none

theorem Transform.compiled?_eq_some_iff {d : Definition} {start : σ} {t : Transform σ} :
    Transform.compiled? d start = some t ↔ (Transform.compile d start).2 = .done t := by
  unfold Transform.compiled?
  generalize Transform.compile d start = result
  obtain ⟨s, outcome⟩ := result
  cases outcome <;> simp

theorem Transform.compiled?_of_failed {d : Definition} {start : σ} {e : Error}
    (h : (Transform.compile d start).2 = .failed e) : Transform.compiled? d start = none := by
  rw [Option.eq_none_iff_forall_ne_some]
  intro t ht
  rw [Transform.compiled?_eq_some_iff, h] at ht
  cases ht

theorem Transform.definition_of_compiled? {d : Definition} {start : σ} {t : Transform σ}
    (h : Transform.compiled? d start = some t) : t.definition = d :=
  (compiles_of_done (Prod.ext rfl (Transform.compiled?_eq_some_iff.mp h))).definition

/-- What can be computed of the transform of a definition holds of it. -/
theorem exists_compile_of_any {d : Definition} {start : σ} {p : Transform σ → Prop}
    [DecidablePred p] (h : (Transform.compiled? d start).any (fun t => decide (p t)) = true) :
    ∃ s t, Transform.compile d start = (s, .done t) ∧ p t := by
  obtain ⟨t, ht, hp⟩ := (Option.any_eq_true _ _).mp h
  have hdone := Transform.compiled?_eq_some_iff.mp ht
  exact ⟨_, t, Prod.ext rfl hdone, of_decide_eq_true hp⟩

end DerivedSignal
