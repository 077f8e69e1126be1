import DerivedSignal.Proofs.PassEvaluation

namespace DerivedSignal

namespace Session

open Script

/-- A session without its checkpoint. -/
def core (s : Session) : Session := { s with saved := none }

/-- Sessions with the same limits, preamble and expression. -/
structure SameScript (s s' : Session) : Prop where
  limits : s'.limits = s.limits
  preamble : s'.preamble = s.preamble
  expression : s'.expression = s.expression

theorem core_eq_iff (s s' : Session) :
    s.core = s'.core ↔ s.limits = s'.limits ∧ s.globals = s'.globals ∧
      s.preamble = s'.preamble ∧ s.expression = s'.expression := by
  simp [core]

theorem SameScript.trans {s s' s'' : Session} (h : SameScript s s') (h' : SameScript s' s'') :
    SameScript s s'' :=
  ⟨h'.limits.trans h.limits, h'.preamble.trans h.preamble, h'.expression.trans h.expression⟩

theorem core_checkpoint (s : Session) : s.checkpoint.core = s.core := rfl

theorem call_core (s : Session) (time value : Float) (channels : List Float) :
    s.core.call time value channels =
      ((s.call time value channels).1.core, (s.call time value channels).2) := by
  unfold call evaluate merge
  cases he : s.expression with
  | none => simp [core, he]
  | some p =>
    simp only [core, he, preambleFunctions]
    split <;> simp_all

theorem sameScript_call (s : Session) (time value : Float) (channels : List Float) :
    SameScript s (s.call time value channels).1 ∧
      (s.call time value channels).1.saved = s.saved := by
  unfold call evaluate merge
  cases he : s.expression with
  | none => exact ⟨⟨rfl, rfl, rfl⟩, rfl⟩
  | some p =>
    simp only
    split <;> exact ⟨⟨rfl, rfl, by simp_all⟩, rfl⟩

theorem loadGlobals_done {s s' : Session} {source : String} (h : s.loadGlobals source = (s', .done ())) :
    ∃ p, runPreamble s.limits p = .done s'.globals ∧
      s' = { s with globals := s'.globals, preamble := some p } := by
  unfold loadGlobals at h
  split at h
  next => cases h
  next p hp =>
    simp only at h
    split at h
    next => cases h
    next => cases h
    next globals hr =>
      cases h
      exact ⟨p.simplify [], hr, rfl⟩

theorem bind_done {s s' : Session} {source : String} (h : s.bind source = (s', .done ())) :
    s' = { s with expression := s'.expression } := by
  unfold bind at h
  split at h
  next => cases h
  next p hp =>
    cases h
    rfl

theorem runPreamble_of_reset {s s' : Session} (h : Evaluator.reset s = (s', .done ())) :
    s' = { s with globals := s'.globals } ∧
      match s.preamble with
      | none => s'.globals = []
      | some p => runPreamble s.limits p = .done s'.globals := by
  change s.reset = (s', .done ()) at h
  unfold reset at h
  cases hp : s.preamble with
  | none =>
    simp only [hp] at h
    cases h
    exact ⟨by simp, rfl⟩
  | some p =>
    simp only [hp] at h
    cases hr : runPreamble s.limits p with
    | abort why => simp [hr] at h
    | failed e => simp [hr] at h
    | done globals =>
      simp only [hr] at h
      cases h
      exact ⟨by simp, hr⟩

/-- A reset leads to the same variables from whatever the calls have made of them. -/
theorem reset_congr {s s' u : Session} (h : Evaluator.reset s = (s', .done ()))
    (hu : SameScript s u) :
    Evaluator.reset u = ({ u with globals := s'.globals }, .done ()) := by
  obtain ⟨-, hg⟩ := runPreamble_of_reset h
  change u.reset = _
  unfold reset
  cases hp : s.preamble with
  | none =>
    rw [hp] at hg
    simp [hu.preamble, hp, hg]
  | some p =>
    rw [hp] at hg
    simp [hu.preamble, hu.limits, hp, hg]

theorem sameScript_reset (s : Session) :
    SameScript s (Evaluator.reset s).1 ∧ (Evaluator.reset s).1.saved = s.saved := by
  change SameScript s s.reset.1 ∧ s.reset.1.saved = s.saved
  unfold reset
  split
  next => exact ⟨⟨rfl, rfl, rfl⟩, rfl⟩
  next =>
    split <;> exact ⟨⟨rfl, rfl, rfl⟩, rfl⟩

theorem sameScript_of_driven {s s' : Session} (h : Driven s s') :
    SameScript s s' ∧ s'.saved = s.saved := by
  induction h with
  | refl => exact ⟨⟨rfl, rfl, rfl⟩, rfl⟩
  | @call u time value channels _ ih =>
    obtain ⟨hs, hsaved⟩ := sameScript_call u time value channels
    exact ⟨ih.1.trans hs, hsaved.trans ih.2⟩
  | @reset u _ ih =>
    obtain ⟨hs, hsaved⟩ := sameScript_reset u
    exact ⟨ih.1.trans hs, hsaved.trans ih.2⟩

theorem restoresCheckpoint_core : RestoresCheckpoint core := by
  intro s s' h
  obtain ⟨hs, hsaved⟩ := sameScript_of_driven h
  have hsaved : s'.saved = some s.globals := hsaved
  have hr : Evaluator.restore s' = { s' with globals := s.globals, saved := none } := by
    change s'.restore = _
    simp [restore, hsaved]
  rw [hr]
  exact (core_eq_iff _ _).mpr ⟨hs.limits, rfl, hs.preamble, hs.expression⟩

theorem evaluateAll_core (t : Transform Session) (channels : List Series) (s : Session)
    (ps : List Point) :
    t.evaluateAll channels s.core ps =
      ((t.evaluateAll channels s ps).1.core, (t.evaluateAll channels s ps).2) := by
  induction ps generalizing s with
  | nil => rfl
  | cons p ps ih =>
    have hcore : Evaluator.call s.core p.x p.y (Alignment.align channels p.x) =
        ((Evaluator.call s p.x p.y (Alignment.align channels p.x)).1.core,
          (Evaluator.call s p.x p.y (Alignment.align channels p.x)).2) :=
      call_core s p.x p.y (Alignment.align channels p.x)
    rw [Transform.evaluateAll_cons, Transform.evaluateAll_cons, hcore]
    obtain ⟨s', outcome⟩ := Evaluator.call s p.x p.y (Alignment.align channels p.x)
    cases outcome with
    | abort why => rfl
    | failed e => rfl
    | done value =>
      cases ht : t.extract p.x value with
      | error e => simp only [ht]
      | ok ys => simp only [ht, ih]

/-- Sessions that differ in their checkpoints only give the same results. -/
theorem evaluateAll_of_core_eq {s s' : Session} (h : s.core = s'.core) (t : Transform Session)
    (channels : List Series) (ps : List Point) :
    (t.evaluateAll channels s ps).1.core = (t.evaluateAll channels s' ps).1.core ∧
      (t.evaluateAll channels s ps).2 = (t.evaluateAll channels s' ps).2 := by
  have hs := evaluateAll_core t channels s ps
  rw [h, evaluateAll_core t channels s' ps] at hs
  exact ⟨(Prod.mk.inj hs).1.symm, (Prod.mk.inj hs).2.symm⟩

theorem evaluateAll_done_of_core_eq {s s' u : Session} (h : s.core = s'.core)
    {t : Transform Session} {channels : List Series} {ps : List Point}
    {rows : List (Float × List Float)} (hs : t.evaluateAll channels s ps = (u, .done rows)) :
    ∃ u', t.evaluateAll channels s' ps = (u', .done rows) ∧ u'.core = u.core := by
  obtain ⟨hcore, houtcome⟩ := evaluateAll_of_core_eq h t channels ps
  rw [hs] at hcore houtcome
  exact ⟨_, Prod.ext rfl houtcome.symm, hcore.symm⟩

theorem error_of_call {s s' : Session} {time value : Float} {channels : List Float} {e : Error}
    (h : Evaluator.call s time value channels = (s', .failed e)) : ∃ message, e = .script message := by
  change s.call time value channels = _ at h
  unfold call evaluate merge at h
  split at h
  next =>
    cases h
    exact ⟨_, rfl⟩
  next =>
    simp only at h
    split at h <;> cases h <;> exact ⟨_, rfl⟩

/-- The evaluation of samples fails in the script, or on a result of another shape. -/
theorem error_of_evaluateAll {t : Transform Session} {channels : List Series} {s s' : Session}
    {ps : List Point} {e : Error} (h : t.evaluateAll channels s ps = (s', .failed e)) :
    (∃ message, e = .script message) ∨
      ∃ x actual, e = .shapeMismatch t.definition.name x t.shape.describe actual := by
  induction ps generalizing s with
  | nil => cases h
  | cons p ps ih =>
    rw [Transform.evaluateAll_cons] at h
    split at h
    next => cases h
    next hcall =>
      cases h
      exact .inl (error_of_call hcall)
    next s₁ value _ =>
      split at h
      next hextract =>
        cases h
        unfold Transform.extract at hextract
        split at hextract <;> cases hextract
        exact .inr ⟨_, _, rfl⟩
      next ys _ =>
        cases hr : (t.evaluateAll channels s₁ ps).2 with
        | abort why => simp [hr, Attempt.map] at h
        | failed e' =>
          simp only [hr, Attempt.map, Prod.mk.injEq, Attempt.failed.injEq] at h
          obtain ⟨rfl, rfl⟩ := h
          exact ih (Prod.ext rfl hr)
        | done rest => simp [hr, Attempt.map] at h

end Session

end DerivedSignal
