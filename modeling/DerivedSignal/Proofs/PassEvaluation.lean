import DerivedSignal.Transform

namespace DerivedSignal

variable {σ : Type} [Evaluator σ]

/-- The evaluators that calls and resets lead to. -/
inductive Driven (start : σ) : σ → Prop
  | refl : Driven start start
  | call {s} (time value : Float) (channels : List Float) : Driven start s →
      Driven start (Evaluator.call s time value channels).1
  | reset {s} : Driven start s → Driven start (Evaluator.reset s).1

/-- After calls and resets, restoring takes what `view` sees back to where the checkpoint was. -/
def RestoresCheckpoint {γ : Type} (view : σ → γ) : Prop :=
  ∀ s s', Driven (Evaluator.checkpoint s) s' → view (Evaluator.restore s') = view s

namespace Transform

theorem evaluateAll_cons (t : Transform σ) (channels : List Series) (s : σ) (p : Point)
    (ps : List Point) :
    t.evaluateAll channels s (p :: ps) =
      match Evaluator.call s p.x p.y (Alignment.align channels p.x) with
      | (s, .abort why) => (s, .abort why)
      | (s, .failed e) => (s, .failed e)
      | (s, .done value) =>
        match t.extract p.x value with
        | .error e => (s, .failed e)
        | .ok ys => ((t.evaluateAll channels s ps).1,
            (t.evaluateAll channels s ps).2.map ((p.x, ys) :: ·)) :=
  rfl

theorem driven_evaluateAll {start s : σ} (t : Transform σ) (channels : List Series)
    (ps : List Point) (h : Driven start s) : Driven start (t.evaluateAll channels s ps).1 := by
  induction ps generalizing s with
  | nil => exact h
  | cons p ps ih =>
    have hc := Driven.call p.x p.y (Alignment.align channels p.x) h
    rw [evaluateAll_cons]
    split
    next s' he => rw [he] at hc; exact hc
    next s' e he => rw [he] at hc; exact hc
    next s' value he =>
      rw [he] at hc
      split
      next => exact hc
      next ys _ => exact ih hc

theorem driven_evaluate {start s : σ} (t : Transform σ) (r : Registry) (mark : Float)
    (h : Driven start s) : Driven start (t.evaluate r mark s).1 := by
  unfold evaluate
  split
  next => exact h
  next linked _ =>
    split
    next => exact h
    next channels _ => exact driven_evaluateAll t channels _ h

theorem evaluate_of_absent {t : Transform σ} {r : Registry} (h : r.find? t.definition.linked = none)
    (mark : Float) (s : σ) : t.evaluate r mark s = (s, .done none) := by
  simp only [evaluate, h]

theorem evaluate_of_unresolved {t : Transform σ} {r : Registry} {linked : Series} {e : Error}
    (hl : r.find? t.definition.linked = some linked)
    (hc : Alignment.resolve r t.slotted.channels = .error e) (mark : Float) (s : σ) :
    t.evaluate r mark s = (s, .failed e) := by
  simp only [evaluate, hl, hc]

theorem evaluate_of_found {t : Transform σ} {r : Registry} {linked : Series}
    {channels : List Series} (hl : r.find? t.definition.linked = some linked)
    (hc : Alignment.resolve r t.slotted.channels = .ok channels) (mark : Float) (s : σ) :
    t.evaluate r mark s = ((t.evaluateAll channels s (linked.after mark)).1,
      (t.evaluateAll channels s (linked.after mark)).2.map
        fun samples => some ⟨samples, linked.bound⟩) := by
  simp only [evaluate, hl, hc]

/-- A list of samples is evaluated part by part. -/
theorem evaluateAll_append {t : Transform σ} {channels : List Series} {s s' : σ} {ps : List Point}
    {rows : List (Float × List Float)} (h : t.evaluateAll channels s ps = (s', .done rows))
    (qs : List Point) :
    t.evaluateAll channels s (ps ++ qs) =
      ((t.evaluateAll channels s' qs).1, (t.evaluateAll channels s' qs).2.map (rows ++ ·)) := by
  induction ps generalizing s rows with
  | nil =>
    cases h
    simp only [List.nil_append, Attempt.map_id]
  | cons p ps ih =>
    rw [evaluateAll_cons] at h
    rw [List.cons_append, evaluateAll_cons]
    split at h
    next => cases h
    next => cases h
    next s₁ value hc =>
      split at h
      next => cases h
      next ys hy =>
        cases hr : (t.evaluateAll channels s₁ ps).2 with
        | abort why => simp [hr, Attempt.map] at h
        | failed e => simp [hr, Attempt.map] at h
        | done rest =>
          simp only [hr, Attempt.map, Prod.mk.injEq, Attempt.done.injEq] at h
          obtain ⟨hs, rfl⟩ := h
          have hps : t.evaluateAll channels s₁ ps = (s', .done rest) := Prod.ext hs hr
          simp only [ih hps, Attempt.map_map, List.cons_append]

/-- Channels matter only as far as the samples see them. -/
theorem evaluateAll_congr_channels {t : Transform σ} {channels channels' : List Series}
    {ps : List Point}
    (h : ∀ p ∈ ps, Alignment.align channels p.x = Alignment.align channels' p.x) (s : σ) :
    t.evaluateAll channels s ps = t.evaluateAll channels' s ps := by
  induction ps generalizing s with
  | nil => rfl
  | cons p ps ih =>
    have hrest : ∀ q ∈ ps, Alignment.align channels q.x = Alignment.align channels' q.x :=
      fun q hq => h q (List.mem_cons_of_mem p hq)
    simp only [evaluateAll_cons, h p List.mem_cons_self, ih hrest]

/-- Of the transform only its shape and its name matter. -/
theorem evaluateAll_congr {t u : Transform σ} (hs : t.shape = u.shape)
    (hd : t.definition = u.definition) (channels : List Series) (s : σ) (ps : List Point) :
    t.evaluateAll channels s ps = u.evaluateAll channels s ps := by
  induction ps generalizing s with
  | nil => rfl
  | cons p ps ih =>
    have he : t.extract = u.extract := by
      funext x value
      simp only [extract, hs, hd]
    simp only [evaluateAll_cons, he, ih]

/-- The results stand at the timestamps of the samples, each with a value for every output. -/
theorem rows_of_evaluateAll {t : Transform σ} {channels : List Series} {s s' : σ}
    {ps : List Point} {rows : List (Float × List Float)}
    (h : t.evaluateAll channels s ps = (s', .done rows)) :
    rows.map (·.1) = ps.map (·.x) ∧ ∀ row ∈ rows, row.2.length = t.shape.arity := by
  induction ps generalizing s rows with
  | nil =>
    cases h
    simp
  | cons p ps ih =>
    rw [evaluateAll_cons] at h
    split at h
    next => cases h
    next => cases h
    next s₁ value hc =>
      split at h
      next => cases h
      next ys hy =>
        cases hr : (t.evaluateAll channels s₁ ps).2 with
        | abort why => simp [hr, Attempt.map] at h
        | failed e => simp [hr, Attempt.map] at h
        | done rest =>
          simp only [hr, Attempt.map, Prod.mk.injEq, Attempt.done.injEq] at h
          obtain ⟨hs, rfl⟩ := h
          obtain ⟨hx, hl⟩ := ih (Prod.ext hs hr)
          have hlen : ys.length = t.shape.arity := by
            unfold extract at hy
            split at hy
            next zs hz => cases hy; exact OutputShape.length_of_extract hz
            next => cases hy
          refine ⟨by simp [hx], fun row hrow => ?_⟩
          rcases List.mem_cons.mp hrow with rfl | hrow
          · exact hlen
          · exact hl row hrow

theorem length_of_evaluateAll {t : Transform σ} {channels : List Series} {s s' : σ}
    {ps : List Point} {rows : List (Float × List Float)}
    (h : t.evaluateAll channels s ps = (s', .done rows)) : rows.length = ps.length := by
  have hx := congrArg List.length (rows_of_evaluateAll h).1
  simpa only [List.length_map] using hx

theorem last?_of_evaluateAll {t : Transform σ} {channels : List Series} {s s' : σ}
    {ps : List Point} {rows : List (Float × List Float)}
    (h : t.evaluateAll channels s ps = (s', .done rows)) (bound : Option Float) :
    Pass.last? ⟨rows, bound⟩ = ps.getLast?.map (·.x) := by
  rw [Pass.last?, ← List.getLast?_map, (rows_of_evaluateAll h).1, List.getLast?_map]

omit [Evaluator σ] in
theorem length_outputs (t : Transform σ) : t.outputs.length = t.shape.arity :=
  OutputShape.length_outputNames t.definition.name t.shape

omit [Evaluator σ] in
theorem lt_arity_of_output {t : Transform σ} {i : Nat} {q : String}
    (h : t.outputs[i]? = some q) : i < t.shape.arity := by
  rw [← length_outputs t]
  exact (List.getElem?_eq_some_iff.mp h).1

end Transform

end DerivedSignal
