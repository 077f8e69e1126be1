import DerivedSignal.Proofs.Lifecycle
import DerivedSignal.Proofs.SessionState

namespace DerivedSignal

/-- A pass that fails, whether an update or a rebuild, leaves the mark, the flag that the outputs
are to be replaced and the global variables as they were. The outputs created since the last pass
are gone again, without having held a sample, and all other series are unchanged. -/
theorem failed_pass_leaves_no_trace :
    RestoresCheckpoint Session.core ∧
    ∀ {σ γ : Type} [Evaluator σ] {view : σ → γ}, RestoresCheckpoint view →
    ∀ {d : Definition} {start : σ} {outside : Registry → Registry → Prop} {t t' : Transform σ}
      {r r' : Registry} {created : List String} {e : Error},
      Lifecycle d start outside t r created →
      (t.update r = (t', r', .failed e) ∨ t.rebuild r = (t', r', .failed e)) →
      t'.mark = t.mark ∧ t'.replaces = t.replaces ∧ view t'.evaluator = view t.evaluator ∧
      (∀ q, q ∉ created → r'.find? q = r.find? q) ∧ (∀ q ∈ created, r'.find? q = none) ∧
      ((∀ r₁ r₂, outside r₁ r₂ → ∀ q ∈ t.outputs, r₂.find? q = r₁.find? q) →
        ∀ q ∈ created, r.find? q = some Series.empty) := by
  refine ⟨Session.restoresCheckpoint_core, ?_⟩
  intro σ γ _ view restores d start outside t t' r r' created e h failed
  obtain ⟨s, hs, rfl, rfl⟩ := Transform.of_failed_isPass (Transform.isPass_of_failed failed)
  have hstaged := h.mem_staged_iff
  refine ⟨rfl, rfl, restores t.evaluator s hs, fun q hq => ?_, fun q hq => ?_, fun others q hq => ?_⟩
  · rw [Registry.find?_eraseAll, if_neg (fun hm => hq ((hstaged q).mp hm))]
  · rw [Registry.find?_eraseAll, if_pos ((hstaged q).mpr hq)]
  · exact (h.find?_created others q hq).2

/-- A channel is missing: only the output that was just registered goes. -/
theorem failed_pass_leaves_no_trace_missing_channel :
    ∃ (t t' : Transform Session) (r r' : Registry),
      Lifecycle ⟨"f", "x", "", "$$a$$"⟩ (Session.new {}) (fun _ _ => False) t r ["f"] ∧
      t.update r = (t', r', .failed (.missingChannel "a")) ∧
      t'.mark = t.mark ∧ t'.replaces = t.replaces ∧ t'.evaluator.core = t.evaluator.core ∧
      (∀ q, q ∉ ["f"] → r'.find? q = r.find? q) ∧ (∀ q ∈ ["f"], r'.find? q = none) ∧
      ∀ q ∈ ["f"], r.find? q = some Series.empty := by
  let d : Definition := ⟨"f", "x", "", "$$a$$"⟩
  let r₀ : Registry := NameMap.empty.insert "x" ⟨[⟨1, 2⟩], none⟩
  obtain ⟨s, t, hc, hcreated, hfailed⟩ : ∃ s t, Transform.compile d (Session.new {}) = (s, .done t) ∧
      t.outputs.filter (fun name => !r₀.contains name) = ["f"] ∧
      ((t.register r₀).1.update (t.register r₀).2).2.2 = .failed (.missingChannel "a") :=
    exists_compile_of_any (by decide +kernel)
  have hcompiled : Lifecycle d (Session.new {}) (fun _ _ => False) t r₀ [] := .compiled r₀ hc
  have hlife := hcompiled.register
  rw [List.nil_append, hcreated] at hlife
  have hupdate := Transform.eq_of_outcome hfailed
  obtain ⟨hm, hr, hg, hothers, hgone, hempty⟩ := failed_pass_leaves_no_trace.2
    Session.restoresCheckpoint_core hlife (Or.inl hupdate)
  exact ⟨_, _, _, _, hlife, hupdate, hm, hr, hg, hothers, hgone,
    hempty (fun _ _ h => h.elim)⟩

end DerivedSignal
