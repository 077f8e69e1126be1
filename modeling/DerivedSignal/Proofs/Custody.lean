import DerivedSignal.Proofs.SessionReload

namespace DerivedSignal

open Transform Definition

namespace Transform

variable {t t' : Transform Session} {r r' : Registry}

/-- The passes that write nothing but outputs, as long as nothing is staged. -/
def WritesOutputs (pass : Transform Session → Registry → Transform Session × Registry × Attempt Nat) :
    Prop :=
  ∀ t r t' r' outcome, t.staged = [] → pass t r = (t', r', outcome) → outcome.Returns →
    SameSignal t t' ∧ t'.staged = [] ∧ ∀ q, q ∉ t.outputs → r'.find? q = r.find? q

theorem writesOutputs_update : WritesOutputs update := by
  intro t r t' r' outcome hstaged h hn
  have hpass : t.IsPass r (t', r', outcome) := h ▸ isPass_update t r
  exact ⟨sameSignal_of_isPass hpass, staged_of_isPass hpass hn, fun q hq =>
    find?_of_isPass hpass hq (by simp [hstaged])⟩

theorem writesOutputs_rebuild : WritesOutputs rebuild := by
  intro t r t' r' outcome hstaged h hn
  cases hl : r.find? t.definition.linked with
  | none =>
    rw [rebuild_of_absent hl] at h
    cases h
    exact ⟨⟨rfl, rfl, rfl⟩, rfl, fun _ _ => rfl⟩
  | some linked =>
    have hpass : t.IsPass r (t', r', outcome) := h ▸ isPass_rebuild hl
    exact ⟨sameSignal_of_isPass hpass, staged_of_isPass hpass hn, fun q hq =>
      find?_of_isPass hpass hq (by simp [hstaged])⟩

/-- A first pass that fails takes back what registering has created. -/
theorem registry_of_failed_startOver {e : Error} (hstaged : t.staged = [])
    (h : t.startOver r = (t', r', .failed e)) : r' = r := by
  obtain ⟨s, -, -, rfl⟩ := of_failed_isPass (isPass_of_failed (.inl h))
  refine NameMap.ext_find? fun q => ?_
  rw [Registry.find?_eraseAll, find?_register]
  by_cases hq : q ∈ t.outputs ∧ r.find? q = none
  · rw [if_pos ((mem_staged_register t r q).mpr (.inr hq)), hq.2]
  · have hnot : q ∉ (t.register r).1.staged := by
      rw [mem_staged_register, hstaged]
      simpa using hq
    rw [if_neg hnot, if_neg hq]

theorem staged_startOver {outcome : Attempt Nat} (h : t.startOver r = (t', r', outcome))
    (hn : outcome.Returns) : t'.staged = [] :=
  staged_update h hn

end Transform

namespace TransformSet

variable {s s' : TransformSet} {r r' : Registry} {d : Definition}

/-- The outputs of the signal of a name. -/
def outputsOf (s : TransformSet) (name : String) : List String :=
  match s.find? name with
  | some t => t.outputs
  | none => []

theorem outputsOf_of_find? {name : String} {t : Transform Session} (h : s.find? name = some t) :
    s.outputsOf name = t.outputs := by
  simp only [outputsOf, h]

theorem find?_remove (s : TransformSet) (r : Registry) (name q : String) :
    (s.remove r name).2.find? q = if q ∈ s.outputsOf name then none else r.find? q := by
  cases h : s.find? name with
  | none => simp [remove, outputsOf, h]
  | some t =>
    rw [outputsOf_of_find? h]
    simp only [remove, h]
    exact Registry.find?_eraseAll t.outputs r q

theorem remove_find? (s : TransformSet) (r : Registry) (name q : String) :
    (s.remove r name).1.find? q = if name = q then none else s.find? q := by
  rw [remove_transforms, find?, NameMap.find?_erase, find?]

/-- How an addition ends that does not end the program: the definition does not compile; or its first pass
fails, and only the signal that it should have replaced is gone; or it joins the set. -/
inductive Addition (s : TransformSet) (r : Registry) (d : Definition) :
    TransformSet → Registry → Attempt (Transform Session) → Prop
  | uncompiled {e} : compiled? d (Session.new s.limits) = none → Addition s r d s r (.failed e)
  | undone {fresh e} : compiled? d (Session.new s.limits) = some fresh →
      Addition s r d (s.remove r d.name).1 (s.remove r d.name).2 (.failed e)
  | joined {fresh t r'} : compiled? d (Session.new s.limits) = some fresh → SameSignal fresh t →
      t.staged = [] → (∀ q, q ∉ fresh.outputs → r'.find? q = (s.remove r d.name).2.find? q) →
      Addition s r d
        { (s.remove r d.name).1 with transforms := (s.remove r d.name).1.transforms.insert d.name t }
        r' (.done t)

theorem addition_of_add {outcome : Attempt (Transform Session)} (h : s.add r d = (s', r', outcome))
    (hn : outcome.Returns) : Addition s r d s' r' outcome := by
  cases hc : (compile d (Session.new s.limits)).2 with
  | abort why =>
    simp only [add, hc] at h
    cases h
    exact hn.elim
  | failed e =>
    simp only [add, hc] at h
    cases h
    exact .uncompiled (compiled?_of_failed hc)
  | done fresh =>
    have hcompiled := compiled?_eq_some_iff.mpr hc
    have hstaged : fresh.staged = [] := (compiles_of_done (Prod.ext rfl hc)).staged
    have hsame := sameSignal_startOver fresh (s.remove r d.name).2
    rw [add_eq hcompiled, enroll_eq, definition_of_compiled? hcompiled] at h
    generalize hpass : fresh.startOver (s.remove r d.name).2 = result at h hsame
    obtain ⟨t, u, found⟩ := result
    cases found with
    | abort why =>
      cases h
      exact hn.elim
    | failed e =>
      cases h
      rw [registry_of_failed_startOver hstaged hpass]
      exact .undone hcompiled
    | done n =>
      cases h
      exact .joined hcompiled hsame (staged_startOver hpass (by simp)) fun q hq =>
        startOver_frame hpass hq

end TransformSet

/-- The definitions of a document, in the order in which they are added; none if it cannot be read. -/
def Document.definitions (text : String) : List Definition :=
  match readDefinitions text with
  | .ok m => m.values
  | .error _ => []

/-- The states of a set of signals and its registry, from an empty set on. `written` are the outputs of all
definitions on the way that have compiled. Operations may fail, but none ends the program. -/
inductive SetRun (limits : Limits) (r₀ : Registry) : TransformSet → Registry → List String → Prop
  | empty : SetRun limits r₀ (TransformSet.empty limits) r₀ []
  | add {s r written} (d : Definition) : SetRun limits r₀ s r written → (s.add r d).2.2.Returns →
      SetRun limits r₀ (s.add r d).1 (s.add r d).2.1 (written ++ writes limits d)
  | remove {s r written} (name : String) : SetRun limits r₀ s r written →
      SetRun limits r₀ (s.remove r name).1 (s.remove r name).2 written
  | updateAll {s r written} : SetRun limits r₀ s r written → (s.updateAll r).2.2.Returns →
      SetRun limits r₀ (s.updateAll r).1 (s.updateAll r).2.1 written
  | rebuildAll {s r written} : SetRun limits r₀ s r written → (s.rebuildAll r).2.2.Returns →
      SetRun limits r₀ (s.rebuildAll r).1 (s.rebuildAll r).2.1 written
  | loadDocument {s r written} (text : String) : SetRun limits r₀ s r written →
      (s.loadDocument r text).2.2.Returns →
      SetRun limits r₀ (s.loadDocument r text).1 (s.loadDocument r text).2.1
        (written ++ (Document.definitions text).flatMap (writes limits))

/-- What is in the registry was there at the start or belongs to a signal of the set. A signal stands under
its own name, has nothing staged, and has its outputs among the written ones; the rest is as at the start. -/
structure Custody (limits : Limits) (r₀ : Registry) (written : List String) (s : TransformSet)
    (r : Registry) : Prop where
  limits_eq : s.limits = limits
  name : ∀ n t, s.find? n = some t → t.definition.name = n
  staged : ∀ n t, s.find? n = some t → t.staged = []
  outputs : ∀ n t, s.find? n = some t → ∀ q ∈ t.outputs, q ∈ written
  known : ∀ q, r.contains q = true → r₀.contains q = true ∨ ∃ n t, s.find? n = some t ∧ q ∈ t.outputs
  frame : ∀ q, q ∉ written → r.find? q = r₀.find? q

namespace Custody

open TransformSet

variable {limits : Limits} {r₀ r r' : Registry} {written : List String} {s s' : TransformSet}

theorem empty : Custody limits r₀ [] (TransformSet.empty limits) r₀ := by
  have hnone : ∀ n t, (TransformSet.empty limits).find? n ≠ some t := fun n t h => by cases h
  exact ⟨rfl, fun n t h => absurd h (hnone n t), fun n t h => absurd h (hnone n t),
    fun n t h => absurd h (hnone n t), fun q hq => .inl hq, fun q _ => rfl⟩

theorem append (h : Custody limits r₀ written s r) (more : List String) :
    Custody limits r₀ (written ++ more) s r where
  limits_eq := h.limits_eq
  name := h.name
  staged := h.staged
  outputs n t ht q hq := List.mem_append_left _ (h.outputs n t ht q hq)
  known := h.known
  frame q hq := h.frame q fun hm => hq (List.mem_append_left _ hm)

theorem outputsOf (h : Custody limits r₀ written s r) {name q : String} (hq : q ∈ s.outputsOf name) :
    q ∈ written := by
  cases ht : s.find? name with
  | none => simp [TransformSet.outputsOf, ht] at hq
  | some t => exact h.outputs name t ht q (outputsOf_of_find? ht ▸ hq)

theorem remove (h : Custody limits r₀ written s r) (name : String) :
    Custody limits r₀ written (s.remove r name).1 (s.remove r name).2 := by
  have hfind : ∀ n t, (s.remove r name).1.find? n = some t → s.find? n = some t := by
    intro n t ht
    rw [remove_find?] at ht
    split at ht
    next => cases ht
    next => exact ht
  refine ⟨?_, fun n t ht => h.name n t (hfind n t ht), fun n t ht => h.staged n t (hfind n t ht),
    fun n t ht => h.outputs n t (hfind n t ht), fun q hq => ?_, fun q hq => ?_⟩
  · rw [remove_transforms]
    exact h.limits_eq
  · obtain ⟨series, hs⟩ := (Registry.contains_eq_true_iff _ q).mp hq
    rw [find?_remove] at hs
    split at hs
    next => cases hs
    next hnot =>
      refine (h.known q ((Registry.contains_eq_true_iff r q).mpr ⟨series, hs⟩)).imp_right ?_
      rintro ⟨n, t, ht, hout⟩
      have hne : name ≠ n := by
        rintro rfl
        exact hnot (outputsOf_of_find? ht ▸ hout)
      exact ⟨n, t, by rw [remove_find?, if_neg hne, ht], hout⟩
  · rw [find?_remove, if_neg fun hm => hq (h.outputsOf hm), h.frame q hq]

/-- A signal of the set, changed or new, writes its outputs. -/
theorem insert (h : Custody limits r₀ written s r) {name : String} {t : Transform Session}
    (hname : t.definition.name = name) (hstaged : t.staged = [])
    (houtputs : ∀ q ∈ t.outputs, q ∈ written) (hsame : ∀ q ∈ s.outputsOf name, q ∈ t.outputs)
    (hr : ∀ q, q ∉ t.outputs → r'.find? q = r.find? q) :
    Custody limits r₀ written { s with transforms := s.transforms.insert name t } r' := by
  let s' : TransformSet := { s with transforms := s.transforms.insert name t }
  have hfind : ∀ n, s'.find? n = if name = n then some t else s.find? n := fun n =>
    NameMap.find?_insert s.transforms name n t
  have hmember : ∀ n u, s'.find? n = some u → (n = name ∧ u = t) ∨ s.find? n = some u := by
    intro n u hu
    rw [hfind] at hu
    split at hu
    next heq => exact .inl ⟨heq.symm, (Option.some.inj hu).symm⟩
    next => exact .inr hu
  refine ⟨h.limits_eq, fun n u hu => ?_, fun n u hu => ?_, fun n u hu => ?_, fun q hq => ?_,
    fun q hq => ?_⟩
  · rcases hmember n u hu with ⟨rfl, rfl⟩ | hu
    · exact hname
    · exact h.name n u hu
  · rcases hmember n u hu with ⟨rfl, rfl⟩ | hu
    · exact hstaged
    · exact h.staged n u hu
  · rcases hmember n u hu with ⟨rfl, rfl⟩ | hu
    · exact houtputs
    · exact h.outputs n u hu
  · by_cases hout : q ∈ t.outputs
    · exact .inr ⟨name, t, by rw [hfind, if_pos rfl], hout⟩
    · have hbefore : r.contains q = true := by
        simpa only [NameMap.contains, hr q hout] using hq
      refine (h.known q hbefore).imp_right ?_
      rintro ⟨n, u, hu, hm⟩
      have hne : name ≠ n := by
        rintro rfl
        exact hout (hsame q (outputsOf_of_find? hu ▸ hm))
      exact ⟨n, u, by rw [hfind, if_neg hne, hu], hm⟩
  · rw [hr q fun hm => hq (houtputs q hm), h.frame q hq]

theorem add {d : Definition} {outcome : Attempt (Transform Session)}
    (h : Custody limits r₀ written s r) (hadd : s.add r d = (s', r', outcome))
    (hn : outcome.Returns) : Custody limits r₀ (written ++ writes limits d) s' r' := by
  cases addition_of_add hadd hn with
  | uncompiled => exact h.append _
  | undone => exact (h.remove d.name).append _
  | @joined fresh t _ hc hsame hstaged hr =>
    have hwrites : writes limits d = t.outputs := by
      rw [h.limits_eq] at hc
      simp only [writes, hc, hsame.outputs]
    have hgone : (s.remove r d.name).1.outputsOf d.name = [] := by
      simp only [TransformSet.outputsOf, remove_find?, if_true]
    refine ((h.remove d.name).append _).insert ?_ hstaged ?_ (by simp [hgone]) ?_
    · rw [hsame.definition, definition_of_compiled? hc]
    · exact fun q hq => List.mem_append_right _ (hwrites ▸ hq)
    · exact fun q hq => hr q (hsame.outputs ▸ hq)

theorem addAll {ds : List Definition} {outcome : Attempt Failures}
    (h : Custody limits r₀ written s r) (hadd : s.addAll r ds = (s', r', outcome))
    (hn : outcome.Returns) : Custody limits r₀ (written ++ ds.flatMap (writes limits)) s' r' := by
  induction ds generalizing s r written outcome with
  | nil =>
    cases hadd
    exact h.append _
  | cons d ds ih =>
    rw [List.flatMap_cons, ← List.append_assoc]
    unfold TransformSet.addAll at hadd
    split at hadd
    next =>
      cases hadd
      exact hn.elim
    next s₁ r₁ e hd =>
      have h₁ := h.add hd (by simp)
      generalize hrest : s₁.addAll r₁ ds = result at hadd
      obtain ⟨s₂, r₂, rest⟩ := result
      cases hadd
      exact ih h₁ hrest (Attempt.returns_map.mp hn)
    next s₁ r₁ t hd => exact ih (h.add hd (by simp)) hadd hn

theorem pass {pass : Transform Session → Registry → Transform Session × Registry × Attempt Nat}
    (hpass : WritesOutputs pass) (h : Custody limits r₀ written s r) {name : String}
    {t t' : Transform Session} {outcome : Attempt Nat} (ht : s.find? name = some t)
    (hrun : pass t r = (t', r', outcome)) (hn : outcome.Returns) :
    Custody limits r₀ written { s with transforms := s.transforms.insert name t' } r' := by
  obtain ⟨hsame, hstaged, hr⟩ := hpass t r t' r' outcome (h.staged name t ht) hrun hn
  refine h.insert ?_ hstaged ?_ ?_ ?_
  · rw [hsame.definition, h.name name t ht]
  · rw [hsame.outputs]
    exact h.outputs name t ht
  · rw [hsame.outputs, outputsOf_of_find? ht]
    exact fun q hq => hq
  · rw [hsame.outputs]
    exact hr

theorem passOver {pass : Transform Session → Registry → Transform Session × Registry × Attempt Nat}
    (hpass : WritesOutputs pass) {names : List String} {outcome : Attempt Failures}
    (h : Custody limits r₀ written s r)
    (hrun : TransformSet.passOver pass s r names = (s', r', outcome)) (hn : outcome.Returns) :
    Custody limits r₀ written s' r' := by
  induction names generalizing s r outcome with
  | nil =>
    cases hrun
    exact h
  | cons name names ih =>
    unfold TransformSet.passOver at hrun
    split at hrun
    next => exact ih h hrun hn
    next t ht =>
      generalize hone : pass t r = result at hrun
      obtain ⟨t', r₁, found⟩ := result
      cases found with
      | abort why =>
        cases hrun
        exact hn.elim
      | failed e =>
        have h₁ := h.pass hpass ht hone (by simp)
        simp only at hrun
        generalize hrest : TransformSet.passOver pass
          { s with transforms := s.transforms.insert name t' } r₁ names = result at hrun
        obtain ⟨s₂, r₂, rest⟩ := result
        cases hrun
        exact ih h₁ hrest (Attempt.returns_map.mp hn)
      | done n => exact ih (h.pass hpass ht hone (by simp)) hrun hn

theorem loadDocument {text : String} {outcome : Attempt Failures}
    (h : Custody limits r₀ written s r) (hload : s.loadDocument r text = (s', r', outcome))
    (hn : outcome.Returns) :
    Custody limits r₀ (written ++ (Document.definitions text).flatMap (writes limits)) s' r' := by
  unfold TransformSet.loadDocument at hload
  unfold Document.definitions
  split at hload
  next =>
    cases hload
    exact h.append _
  next m hm =>
    simp only [hm]
    exact h.addAll hload hn

end Custody

theorem SetRun.custody {limits : Limits} {r₀ r : Registry} {s : TransformSet} {written : List String}
    (h : SetRun limits r₀ s r written) : Custody limits r₀ written s r := by
  induction h with
  | empty => exact .empty
  | add d _ hn ih => exact ih.add rfl hn
  | remove name _ ih => exact ih.remove name
  | updateAll _ hn ih => exact ih.passOver writesOutputs_update rfl hn
  | rebuildAll _ hn ih => exact ih.passOver writesOutputs_rebuild rfl hn
  | loadDocument text _ hn ih => exact ih.loadDocument rfl hn

/-- However definitions were added, replaced, updated, rebuilt and removed: a series is in the registry only
if it was there at the start or is an output of a signal of the set; a series that no definition has ever
written is as it was at the start; and without signals, if no output was there at the start, the registry is
what it was. -/
theorem no_orphan_series {limits : Limits} {r₀ r : Registry} {s : TransformSet} {written : List String}
    (h : SetRun limits r₀ s r written) :
    (∀ q, r.contains q = true →
      r₀.contains q = true ∨ ∃ n t, s.find? n = some t ∧ q ∈ t.outputs) ∧
    (∀ q, q ∉ written → r.find? q = r₀.find? q) ∧
    ((∀ q ∈ written, r₀.contains q = false) → (∀ n, s.find? n = none) → r = r₀) := by
  have hcustody := h.custody
  refine ⟨hcustody.known, hcustody.frame, fun hfresh hnone => NameMap.ext_find? fun q => ?_⟩
  by_cases hq : q ∈ written
  · have hstart := hfresh q hq
    have hgone : r.contains q = false := by
      refine Bool.eq_false_iff.mpr fun hc => ?_
      rcases hcustody.known q hc with hc | ⟨n, t, ht, -⟩
      · rw [hstart] at hc
        cases hc
      · rw [hnone n] at ht
        cases ht
    rw [(Registry.contains_eq_false_iff r q).mp hgone, (Registry.contains_eq_false_iff r₀ q).mp hstart]
  · exact hcustody.frame q hq

theorem TransformSet.find?_of_size_eq_zero {s : TransformSet} (h : s.transforms.size = 0) (n : String) :
    s.find? n = none := by
  simp only [find?, NameMap.find?, List.length_eq_zero_iff.mp h, NameMap.lookup]

theorem Attempt.returns_of_map {α β : Type} {f : α → β} {a : Attempt α} {b : Attempt β}
    (h : a.map f = b) (hb : b.Returns) : a.Returns :=
  returns_map.mp (h ▸ hb)

theorem Attempt.returns_of_done {α : Type} {a : Attempt α} {v : α} (h : a = .done v) : a.Returns :=
  h ▸ returns_done v

/-- A signal gives way to one that fails, a document adds another signal and one that fails, and the last
signal is removed: the registry is what it was. -/
theorem no_orphan_series_replaced_and_removed :
    ∃ (s : TransformSet) (r : Registry) (written : List String),
      let r₀ : Registry := NameMap.empty.insert "x" ⟨[⟨0, 1⟩], none⟩
      SetRun {} r₀ s r written ∧ written = ["f.0", "f.1", "f", "g", "h/k"] ∧
      (∀ q ∈ written, r₀.contains q = false) ∧ (∀ n, s.find? n = none) ∧ r = r₀ := by
  let r₀ : Registry := NameMap.empty.insert "x" ⟨[⟨0, 1⟩], none⟩
  let text : String := "<customMathEquations><snippet name=\"g\"><linkedPlot>x</linkedPlot>" ++
    "<equation>$$ghost$$</equation></snippet><snippet name=\"h\"><linkedPlot>x</linkedPlot>" ++
    "<equation>#\x7bk: value\x7d</equation></snippet></customMathEquations>"
  let first : Definition := ⟨"f", "x", "", "[value, value]"⟩
  let second : Definition := ⟨"f", "x", "", "$$ghost$$"⟩
  obtain ⟨pair, replaced, loaded, updated, rebuilt, e₁, e₂, e₃, e₄, e₅, hpair, hreplaced, hloaded,
      hupdated, hrebuilt, hsize⟩ : ∃ pair replaced loaded updated rebuilt,
      pair = (TransformSet.empty {}).add r₀ first ∧ replaced = pair.1.add pair.2.1 second ∧
      loaded = replaced.1.loadDocument replaced.2.1 text ∧
      updated = loaded.1.updateAll loaded.2.1 ∧ rebuilt = updated.1.rebuildAll updated.2.1 ∧
      pair.2.2.map (·.outputs) = .done ["f.0", "f.1"] ∧
      replaced.2.2.map (·.outputs) =
        .failed (.context "Failed to evaluate 'f'" (.missingChannel "ghost")) ∧
      loaded.2.2 = .done [("g", .context "Failed to evaluate 'g'" (.missingChannel "ghost"))] ∧
      updated.2.2 = .done [] ∧ rebuilt.2.2 = .done [] ∧
      (rebuilt.1.remove rebuilt.2.1 "h").1.transforms.size = 0 :=
    ⟨_, _, _, _, _, rfl, rfl, rfl, rfl, rfl, by decide +kernel⟩
  have h₁ := @SetRun.add {} r₀ _ _ _ first .empty
  rw [← e₁] at h₁
  have h₂ := (h₁ (Attempt.returns_of_map hpair (by simp))).add second
  rw [← e₂] at h₂
  have h₃ := (h₂ (Attempt.returns_of_map hreplaced (by simp))).loadDocument text
  rw [← e₃] at h₃
  have h₄ := (h₃ (Attempt.returns_of_done hloaded)).updateAll
  rw [← e₄] at h₄
  have h₅ := (h₄ (Attempt.returns_of_done hupdated)).rebuildAll
  rw [← e₅] at h₅
  have hrun := (h₅ (Attempt.returns_of_done hrebuilt)).remove "h"
  have hwritten : [] ++ writes {} first ++ writes {} second ++
      (Document.definitions text).flatMap (writes {}) = ["f.0", "f.1", "f", "g", "h/k"] := by
    decide +kernel
  rw [hwritten] at hrun
  have hfresh : ∀ q ∈ ["f.0", "f.1", "f", "g", "h/k"], r₀.contains q = false := by decide +kernel
  have hnone := TransformSet.find?_of_size_eq_zero hsize
  exact ⟨_, _, _, hrun, rfl, hfresh, hnone, (no_orphan_series hrun).2.2 hfresh hnone⟩

end DerivedSignal
