import DerivedSignal.Proofs.Lifecycle

namespace DerivedSignal

open Transform

variable {σ : Type}

/-- Of the outputs that were created, those that are staged and those that were left in place by a pass
without a linked series are in the registry, still empty, and no others. -/
structure Accounted (t : Transform σ) (r : Registry) (created left : List String) : Prop where
  outputs : ∀ q ∈ created, q ∈ t.outputs
  present : ∀ q ∈ created,
    r.find? q = if q ∈ t.staged ∨ q ∈ left then some Series.empty else none
  staged : ∀ q ∈ t.staged, q ∈ created ∧ q ∉ left
  left : ∀ q ∈ left, q ∈ created

namespace Accounted

variable {t t' : Transform σ} {r r' : Registry} {created left : List String}

theorem elsewhere (h : Accounted t r created left) (hr : ∀ q ∈ t.outputs, r'.find? q = r.find? q) :
    Accounted t r' created left :=
  ⟨h.outputs, fun q hq => (hr q (h.outputs q hq)).trans (h.present q hq), h.staged, h.left⟩

theorem register (h : Accounted t r created left) :
    Accounted (t.register r).1 (t.register r).2
      (created ++ t.outputs.filter fun name => !r.contains name) left := by
  have hoccurs : ∀ q, q ∈ created ++ t.outputs.filter (fun name => !r.contains name) ↔
      q ∈ created ∨ q ∈ t.outputs ∧ r.find? q = none := by
    intro q
    rw [List.mem_append, Lifecycle.mem_missing]
  refine ⟨fun q hq => ?_, fun q hq => ?_, fun q hq => ?_, fun q hq => ?_⟩
  · exact ((hoccurs q).mp hq).elim (h.outputs q) And.left
  · -- What was missing is created and staged; what was there stays as it is.
    have hout : q ∈ t.outputs := ((hoccurs q).mp hq).elim (h.outputs q) And.left
    simp only [find?_register, mem_staged_register, hout, true_and]
    by_cases hn : r.find? q = none
    · simp only [hn, if_true, or_true, true_or]
    · have hp := h.present q (((hoccurs q).mp hq).resolve_right fun hm => hn hm.2)
      simp only [hn, if_false, or_false]
      exact hp
  · rcases (mem_staged_register t r q).mp hq with hs | ⟨hout, hn⟩
    · exact ⟨(hoccurs q).mpr (.inl (h.staged q hs).1), (h.staged q hs).2⟩
    · refine ⟨(hoccurs q).mpr (.inr ⟨hout, hn⟩), fun hl => ?_⟩
      rw [h.present q (h.left q hl), if_pos (.inr hl)] at hn
      cases hn
  · exact (hoccurs q).mpr (.inl (h.left q hq))

theorem idle (h : Accounted t r created left) (hs : SameSignal t t') (hstaged : t'.staged = []) :
    Accounted t' r created (created.filter r.contains) := by
  refine ⟨fun q hq => hs.outputs ▸ h.outputs q hq, fun q hq => ?_, ?_, fun q hq => ?_⟩
  · have hp := h.present q hq
    have hc : q ∈ created.filter r.contains ↔ q ∈ t.staged ∨ q ∈ left := by
      rw [List.mem_filter, Registry.contains_eq_true_iff, hp]
      split <;> simp_all
    simp only [hstaged, List.not_mem_nil, false_or, hc, hp]
  · simp [hstaged]
  · exact (List.mem_filter.mp hq).1

end Accounted

variable [Evaluator σ]

/-- The states of a transform up to its first successful pass over a linked series. `created` are the
outputs that registering has created, and `left` those of them that stood in the registry when a pass last
found no linked series. In between others change any series but the outputs. -/
inductive Unevaluated (d : Definition) (start : σ) :
    Transform σ → Registry → List String → List String → Prop
  | compiled {s t} (r : Registry) : compile d start = (s, .done t) → Unevaluated d start t r [] []
  | elsewhere {t r created left} (r' : Registry) : Unevaluated d start t r created left →
      (∀ q ∈ t.outputs, r'.find? q = r.find? q) → Unevaluated d start t r' created left
  | register {t r created left} : Unevaluated d start t r created left →
      Unevaluated d start (t.register r).1 (t.register r).2
        (created ++ t.outputs.filter fun name => !r.contains name) left
  | idle {t r created left t' r' outcome} : Unevaluated d start t r created left →
      r.find? t.definition.linked = none →
      (t.update r = (t', r', outcome) ∨ t.rebuild r = (t', r', outcome)) →
      Unevaluated d start t' r' created (created.filter r.contains)
  | failed {t r created left t' r' e} : Unevaluated d start t r created left →
      (t.update r = (t', r', .failed e) ∨ t.rebuild r = (t', r', .failed e)) →
      Unevaluated d start t' r' created left

variable {d : Definition} {start : σ} {t t' : Transform σ} {r r' : Registry}
  {created left : List String} {e : Error}

namespace Transform

theorem update_of_absent (h : r.find? t.definition.linked = none) :
    t.update r =
      ({ t with evaluator := Evaluator.checkpoint t.evaluator, staged := [] }, r, .done 0) := by
  rw [update, evaluate_of_absent h]
  rfl

/-- A pass without a linked series only forgets which outputs were staged. -/
theorem of_idle_pass {outcome : Attempt Nat} (hl : r.find? t.definition.linked = none)
    (h : t.update r = (t', r', outcome) ∨ t.rebuild r = (t', r', outcome)) :
    SameSignal t t' ∧ t'.staged = [] ∧ r' = r := by
  rw [update_of_absent hl, rebuild_of_absent hl] at h
  rcases h with h | h <;> cases h <;> exact ⟨⟨rfl, rfl, rfl⟩, rfl, rfl⟩

end Transform

/-- A failed pass leaves of what was created only what was left before. -/
theorem Accounted.find?_after_failure (h : Accounted t r created left)
    (failed : t.update r = (t', r', .failed e) ∨ t.rebuild r = (t', r', .failed e)) :
    ∀ q ∈ created, r'.find? q = if q ∈ left then some Series.empty else none := by
  obtain ⟨s, -, -, rfl⟩ := of_failed_isPass (isPass_of_failed failed)
  intro q hq
  rw [Registry.find?_eraseAll, h.present q hq]
  by_cases hs : q ∈ t.staged
  · rw [if_pos hs, if_neg (h.staged q hs).2]
  · simp only [hs, if_false, false_or]

theorem Accounted.failed (h : Accounted t r created left)
    (failed : t.update r = (t', r', .failed e) ∨ t.rebuild r = (t', r', .failed e)) :
    Accounted t' r' created left := by
  have hfind := h.find?_after_failure failed
  obtain ⟨s, -, rfl, -⟩ := of_failed_isPass (isPass_of_failed failed)
  refine ⟨h.outputs, fun q hq => ?_, by simp, h.left⟩
  simpa using hfind q hq

theorem Unevaluated.accounted (h : Unevaluated d start t r created left) :
    Accounted t r created left := by
  induction h with
  | compiled r hc => exact ⟨by simp, by simp, by simp [(compiles_of_done hc).staged], by simp⟩
  | elsewhere r' _ hr ih => exact ih.elsewhere hr
  | register _ ih => exact ih.register
  | idle _ hl hpass ih =>
    obtain ⟨hs, hstaged, rfl⟩ := of_idle_pass hl hpass
    exact ih.idle hs hstaged
  | failed _ hfailed ih => exact ih.failed hfailed

/-- Before anything has been evaluated, a failed pass removes every output that registering has created,
except those that an earlier pass, without a linked series, has found in place: these stay as empty
series. -/
theorem created_outputs_after_failure (h : Unevaluated d start t r created left)
    (failed : t.update r = (t', r', .failed e) ∨ t.rebuild r = (t', r', .failed e)) :
    ∀ q ∈ created, r'.find? q = if q ∈ left then some Series.empty else none :=
  h.accounted.find?_after_failure failed

/-- The linked series comes between a pass without it and the registering, and a channel is missing: the
outputs go. -/
theorem created_outputs_after_failure_missing_channel :
    ∃ (t t' : Transform Session) (r r' : Registry),
      Unevaluated ⟨"f", "x", "", "[value, $$a$$]"⟩ (Session.new {}) t r ["f.0", "f.1"] [] ∧
      t.rebuild r = (t', r', .failed (.missingChannel "a")) ∧
      ∀ q ∈ ["f.0", "f.1"], r'.find? q = none := by
  let d : Definition := ⟨"f", "x", "", "[value, $$a$$]"⟩
  let r₀ : Registry := NameMap.empty
  let r₁ : Registry := r₀.insert "x" ⟨[⟨1, 2⟩], none⟩
  obtain ⟨s, t, hc, hl, happears, hcreated, hfailed⟩ : ∃ s t,
      compile d (Session.new {}) = (s, .done t) ∧ r₀.find? t.definition.linked = none ∧
      (∀ q ∈ (t.update r₀).1.outputs, r₁.find? q = (t.update r₀).2.1.find? q) ∧
      (t.update r₀).1.outputs.filter (fun name => !r₁.contains name) = ["f.0", "f.1"] ∧
      (((t.update r₀).1.register r₁).1.rebuild ((t.update r₀).1.register r₁).2).2.2 =
        .failed (.missingChannel "a") :=
    exists_compile_of_any (by decide +kernel)
  have hcompiled : Unevaluated d (Session.new {}) t r₀ [] [] := .compiled _ hc
  have hlife := ((hcompiled.idle hl (.inl (eq_of_outcome rfl))).elsewhere r₁ happears).register
  rw [List.nil_append, hcreated] at hlife
  have hrebuild := eq_of_outcome hfailed
  exact ⟨_, _, _, _, hlife, hrebuild, created_outputs_after_failure hlife (.inr hrebuild)⟩

/-- The linked series comes between a pass without it and the failing pass: the output that was registered
before both of them stays. -/
theorem idle_pass_keeps_unevaluated_output :
    ∃ (t t' : Transform Session) (r r' : Registry) (left : List String),
      Unevaluated ⟨"f", "x", "", "$$a$$"⟩ (Session.new {}) t r ["f"] left ∧
      t.update r = (t', r', .failed (.missingChannel "a")) ∧
      r'.find? "f" = some Series.empty := by
  let d : Definition := ⟨"f", "x", "", "$$a$$"⟩
  let r₀ : Registry := NameMap.empty
  let r₁ : Registry := (r₀.insert "f" Series.empty).insert "x" ⟨[⟨1, 2⟩], none⟩
  obtain ⟨s, t, hc, hcreated, hl, happears, hfailed, hfind⟩ : ∃ s t,
      compile d (Session.new {}) = (s, .done t) ∧
      t.outputs.filter (fun name => !r₀.contains name) = ["f"] ∧
      (t.register r₀).2.find? (t.register r₀).1.definition.linked = none ∧
      (∀ q ∈ ((t.register r₀).1.update (t.register r₀).2).1.outputs,
        r₁.find? q = ((t.register r₀).1.update (t.register r₀).2).2.1.find? q) ∧
      (((t.register r₀).1.update (t.register r₀).2).1.update r₁).2.2 = .failed (.missingChannel "a") ∧
      (((t.register r₀).1.update (t.register r₀).2).1.update r₁).2.1.find? "f" = some Series.empty :=
    exists_compile_of_any (by decide +kernel)
  have hcompiled : Unevaluated d (Session.new {}) t r₀ [] [] := .compiled _ hc
  have hregistered := hcompiled.register
  rw [List.nil_append, hcreated] at hregistered
  have hlife := (hregistered.idle hl (.inl (eq_of_outcome rfl))).elsewhere r₁ happears
  exact ⟨_, _, _, _, _, hlife, eq_of_outcome hfailed, hfind⟩

end DerivedSignal
