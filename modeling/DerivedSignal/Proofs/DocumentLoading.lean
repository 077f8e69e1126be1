import DerivedSignal.Proofs.Independence
import DerivedSignal.Proofs.Resaving

namespace DerivedSignal

open Transform

namespace TransformSet

variable {s s' : TransformSet} {r r' : Registry} {d : Definition}

/-- Every signal stands under the name of its definition, which compiles within the limits of the set. -/
def Sound (s : TransformSet) : Prop :=
  ∀ n t, s.find? n = some t →
    t.definition.name = n ∧ (compiled? t.definition (Session.new s.limits)).isSome

theorem Sound.remove (h : s.Sound) (r : Registry) (name : String) : (s.remove r name).1.Sound := by
  intro n t ht
  have hlimits : (s.remove r name).1.limits = s.limits := by rw [remove_transforms]
  rw [remove_find?] at ht
  split at ht
  next => cases ht
  next => exact hlimits ▸ h n t ht

theorem Sound.insert (h : s.Sound) {t : Transform Session}
    (ht : (compiled? t.definition (Session.new s.limits)).isSome) :
    Sound { s with transforms := s.transforms.insert t.definition.name t } := by
  intro n u hu
  rw [find?, NameMap.find?_insert] at hu
  split at hu
  next hn =>
    cases hu
    exact ⟨hn, ht⟩
  next => exact h n u hu

theorem Sound.add (h : s.Sound) {outcome : Attempt (Transform Session)}
    (hadd : s.add r d = (s', r', outcome)) (hn : outcome.Returns) : s'.Sound := by
  cases addition_of_add hadd hn with
  | uncompiled => exact h
  | undone => exact h.remove r d.name
  | @joined fresh t _ hc hsame =>
    have ht : t.definition = d := hsame.definition.trans (definition_of_compiled? hc)
    have hjoined := (h.remove r d.name).insert (t := t) (by rw [ht, remove_transforms, hc]; rfl)
    rwa [ht] at hjoined

theorem Sound.passOver {pass : PassOne} (hpass : ∀ t r, SameSignal t (pass t r).1) (names : List String)
    (h : s.Sound) (r : Registry) : (passOver pass s r names).1.Sound := by
  induction names generalizing s r with
  | nil => exact h
  | cons name names ih =>
    unfold TransformSet.passOver
    split
    next => exact ih h r
    next t ht =>
      obtain ⟨hname, hcompiles⟩ := h name t ht
      have hsame := (hpass t r).definition
      have hnext : Sound { s with transforms := s.transforms.insert name (pass t r).1 } := by
        rw [← hname, ← hsame]
        exact h.insert (hsame ▸ hcompiles)
      generalize pass t r = result at hnext
      obtain ⟨t', r₁, outcome⟩ := result
      cases outcome with
      | abort why => exact hnext
      | failed e => exact ih hnext r₁
      | done n => exact ih hnext r₁

/-- Adding a definition concerns the signal of its name only. -/
theorem other_signal_of_add {outcome : Attempt (Transform Session)} (h : s.add r d = (s', r', outcome))
    (hn : outcome.Returns) {n : String} (hne : d.name ≠ n) : s'.find? n = s.find? n := by
  cases addition_of_add h hn with
  | uncompiled => rfl
  | undone => rw [remove_find?, if_neg hne]
  | joined =>
    rw [find?, NameMap.find?_insert, if_neg hne]
    exact (remove_find? s r d.name n).trans (if_neg hne)

/-- The set holds a signal of a definition, under its name. -/
def Holds (s : TransformSet) (d : Definition) : Prop :=
  ∃ t, s.find? d.name = some t ∧ t.definition = d

/-- An addition fails just when the set does not hold the definition afterwards: one that does not compile
is not held from before either. -/
theorem Sound.held_of_add (h : s.Sound) {outcome : Attempt (Transform Session)}
    (hadd : s.add r d = (s', r', outcome)) (hn : outcome.Returns) :
    (∃ e, outcome = .failed e) ↔ ¬ s'.Holds d := by
  cases addition_of_add hadd hn with
  | uncompiled hc =>
    refine iff_of_true ⟨_, rfl⟩ ?_
    rintro ⟨t, ht, rfl⟩
    have hcompiles := (h _ t ht).2
    rw [hc] at hcompiles
    cases hcompiles
  | undone =>
    refine iff_of_true ⟨_, rfl⟩ ?_
    rintro ⟨t, ht, -⟩
    rw [remove_find?, if_pos rfl] at ht
    cases ht
  | @joined fresh t _ hc hsame =>
    refine iff_of_false (by simp) (not_not_intro ⟨t, ?_, ?_⟩)
    · rw [find?, NameMap.find?_insert, if_pos rfl]
    · exact hsame.definition.trans (definition_of_compiled? hc)

/-- Definitions of different names are added each on its own. -/
theorem Sound.held_of_addAll {ds : List Definition} (hdistinct : ds.Pairwise fun d e => d.name ≠ e.name)
    (h : s.Sound) {outcome : Attempt Failures} (hadd : s.addAll r ds = (s', r', outcome))
    (hn : outcome.Returns) :
    s'.Sound ∧ (∀ n, n ∉ ds.map (·.name) → s'.find? n = s.find? n) ∧
      ∃ failures, outcome = .done failures ∧
        (failures.map (·.1)).Sublist (ds.map (·.name)) ∧
        ∀ d ∈ ds, d.name ∈ failures.map (·.1) ↔ ¬ s'.Holds d := by
  induction ds generalizing s r outcome with
  | nil =>
    cases hadd
    exact ⟨h, fun n _ => rfl, [], rfl, .refl _, by simp⟩
  | cons d ds ih =>
    obtain ⟨hd, hdistinct⟩ := List.pairwise_cons.mp hdistinct
    have hfresh : d.name ∉ ds.map (·.name) := fun hm => by
      obtain ⟨e, he, hname⟩ := List.mem_map.mp hm
      exact hd e he hname.symm
    generalize hone : s.add r d = result at hadd
    obtain ⟨s₁, r₁, found⟩ := result
    simp only [addAll, hone] at hadd
    -- What the other definitions leave of the signal that was added or not.
    have hrest : ∀ {rest : Attempt Failures}, found.Returns → s₁.addAll r₁ ds = (s', r', rest) →
        rest.Returns → s'.Sound ∧ (∀ n, n ∉ (d :: ds).map (·.name) → s'.find? n = s.find? n) ∧
          ((∃ e, found = .failed e) ↔ ¬ s'.Holds d) ∧
          ∃ failures, rest = .done failures ∧
            (failures.map (·.1)).Sublist (ds.map (·.name)) ∧
            ∀ e ∈ ds, e.name ∈ failures.map (·.1) ↔ ¬ s'.Holds e := by
      intro rest hfound hall hrest
      have hheld := h.held_of_add hone hfound
      obtain ⟨hsound, hframe, hfailures⟩ := ih hdistinct (h.add hone hfound) hall hrest
      refine ⟨hsound, fun n hnot => ?_, by rwa [Holds, hframe d.name hfresh], hfailures⟩
      obtain ⟨hne, hnot⟩ := List.ne_and_not_mem_of_not_mem_cons hnot
      rw [hframe n hnot, other_signal_of_add hone hfound hne.symm]
    cases found with
    | abort why =>
      cases hadd
      exact hn.elim
    | failed e =>
      simp only at hadd
      generalize hall : s₁.addAll r₁ ds = result at hadd hrest
      obtain ⟨s₂, r₂, rest⟩ := result
      cases hadd
      obtain ⟨hsound, hframe, hheld, failures, rfl, hsublist, heach⟩ :=
        hrest (by simp) rfl (Attempt.returns_map.mp hn)
      refine ⟨hsound, hframe, (d.name, e) :: failures, rfl, hsublist.cons_cons _, ?_⟩
      rintro f hf
      rcases List.mem_cons.mp hf with rfl | hf
      · exact iff_of_true (by simp) (hheld.mp ⟨e, rfl⟩)
      · rw [← heach f hf, List.map_cons, List.mem_cons, or_iff_right (hd f hf).symm]
    | done t =>
      obtain ⟨hsound, hframe, hheld, failures, rfl, hsublist, heach⟩ := hrest (by simp) hadd hn
      refine ⟨hsound, hframe, failures, rfl, hsublist.cons _, ?_⟩
      rintro f hf
      rcases List.mem_cons.mp hf with rfl | hf
      · exact iff_of_false (fun hm => hfresh (hsublist.subset hm)) fun hnot => by
          obtain ⟨e, he⟩ := hheld.mpr hnot
          cases he
      · exact heach f hf

end TransformSet

open TransformSet

theorem Document.values_of_readDefinitions {text : String} {m : NameMap Definition}
    (h : readDefinitions text = .ok m) :
    m.values.map (·.name) = m.names ∧ m.values.Pairwise (fun d e => d.name < e.name) ∧
      ∀ n d, m.find? n = some d → d.name = n ∧ d ∈ m.values := by
  have hname : ∀ e ∈ m.entries, e.2.name = e.1 := fun e he => (loaded_of_readDefinitions h e he).name
  refine ⟨?_, List.pairwise_map.mpr (m.sorted.imp_of_mem ?_), fun n d hd => ?_⟩
  · rw [NameMap.values, List.map_map]
    exact List.map_congr_left hname
  · intro e f he hf hlt
    rwa [hname e he, hname f hf]
  · have hmem := NameMap.mem_of_lookup hd
    exact ⟨hname _ hmem, List.mem_map_of_mem hmem⟩

theorem TransformSet.Reachable.sound {limits : Limits} {s : TransformSet} (h : Reachable limits s) :
    s.Sound := by
  induction h with
  | empty => intro n t ht; cases ht
  | add r d _ hn ih => exact ih.add rfl hn
  | remove r name _ ih => exact ih.remove r name
  | updateAll r _ _ ih => exact ih.passOver (fun t r => sameSignal_update t r) _ r
  | rebuildAll r _ _ ih => exact ih.passOver (fun t r => sameSignal_rebuild t r) _ r
  | @loadDocument u r text _ hn ih =>
    generalize hload : u.loadDocument r text = result at hn
    obtain ⟨s', r', outcome⟩ := result
    unfold TransformSet.loadDocument at hload
    split at hload
    next =>
      cases hload
      exact ih
    next m hm =>
      have hordered := (Document.values_of_readDefinitions hm).2.1
      exact (ih.held_of_addAll (hordered.imp String.ne_of_lt) hload hn).1

/-- A document that cannot be read is reported and changes nothing. Of one that can be read, each definition
is added on its own: the failures come in the order of the names, they name those definitions of the
document that the set does not hold afterwards and no others, and a signal that the document does not name
is the same as before. -/
theorem document_loaded_definition_by_definition {limits : Limits} {s : TransformSet}
    (hs : Reachable limits s) (r : Registry) (text : String) :
    match Document.readDefinitions text with
    | .error e => s.loadDocument r text = (s, r, .failed e)
    | .ok m => ∀ s' r' outcome, s.loadDocument r text = (s', r', outcome) → outcome.Returns →
        ∃ failures, outcome = .done failures ∧ failures.Pairwise (fun f g => f.1 < g.1) ∧
          (∀ f ∈ failures, m.contains f.1 = true) ∧
          (∀ n d, m.find? n = some d →
            ((∃ e, (n, e) ∈ failures) ↔ ¬ ∃ t, s'.find? n = some t ∧ t.definition = d)) ∧
          ∀ n, m.contains n = false → s'.find? n = s.find? n := by
  cases hm : Document.readDefinitions text with
  | error e => simp only [loadDocument, hm]
  | ok m =>
    intro s' r' outcome h hn
    simp only [loadDocument, hm] at h
    obtain ⟨hnames, hordered, hfind⟩ := Document.values_of_readDefinitions hm
    obtain ⟨-, hframe, failures, rfl, hsublist, heach⟩ :=
      hs.sound.held_of_addAll (hordered.imp String.ne_of_lt) h hn
    rw [hnames] at hsublist hframe
    refine ⟨failures, rfl, ?_, fun f hf => ?_, fun n d hd => ?_, fun n hnot => hframe n fun hmem => ?_⟩
    · exact List.pairwise_map.mp (m.keys.property.sublist hsublist)
    · obtain ⟨x, hx, hname⟩ := List.mem_map.mp (hsublist.subset (List.mem_map_of_mem hf))
      rw [NameMap.contains, ← hname, NameMap.find?_of_mem hx]
      rfl
    · obtain ⟨rfl, hmem⟩ := hfind n d hd
      refine Iff.trans ?_ (heach d hmem)
      simp
    · obtain ⟨x, hx, rfl⟩ := List.mem_map.mp hmem
      rw [NameMap.contains, NameMap.find?_of_mem hx] at hnot
      cases hnot

/-- Of three definitions one does not compile, so the older signal of its name stays; one fails in its first
pass, so the older signal of its name is gone; one joins the set. -/
theorem document_loaded_definition_by_definition_mixed :
    ∃ (s s' : TransformSet) (r r' : Registry) (text : String), Reachable {} s ∧
      s.transforms.names = ["a", "b", "z"] ∧
      (Document.definitions text).map (·.name) = ["a", "b", "c"] ∧
      s.loadDocument r text = (s', r', .done
        [("a", .context "Failed to compile 'a'" (.compile "expression: syntax error")),
          ("b", .context "Failed to evaluate 'b'" (.missingChannel "ghost"))]) ∧
      s'.transforms.names = ["a", "c", "z"] ∧ s'.find? "z" = s.find? "z" := by
  let r₀ : Registry := NameMap.empty.insert "x" ⟨[⟨0, 1⟩], none⟩
  let failures : Failures :=
    [("a", .context "Failed to compile 'a'" (.compile "expression: syntax error")),
      ("b", .context "Failed to evaluate 'b'" (.missingChannel "ghost"))]
  obtain ⟨text, a, b, z, loaded, ha, hb, hz, hloaded, hdefinitions, hnew, hdone, hnames, hnames'⟩ :
      ∃ text a b z loaded, a = (TransformSet.empty {}).add r₀ ⟨"a", "x", "", "value"⟩ ∧
        b = a.1.add a.2.1 ⟨"b", "x", "", "value"⟩ ∧ z = b.1.add b.2.1 ⟨"z", "x", "", "value"⟩ ∧
        loaded = z.1.loadDocument z.2.1 text ∧
        (Document.definitions text).map (·.name) = ["a", "b", "c"] ∧
        (Document.readDefinitions text).toOption.map (·.contains "z") = some false ∧
        (a.2.2.map (·.outputs) = .done ["a"] ∧ b.2.2.map (·.outputs) = .done ["b"] ∧
          z.2.2.map (·.outputs) = .done ["z"] ∧ loaded.2.2 = .done failures) ∧
        z.1.transforms.names = ["a", "b", "z"] ∧ loaded.1.transforms.names = ["a", "c", "z"] :=
    ⟨"<customMathEquations><snippet name=\"a\"><equation>1 +</equation></snippet>" ++
      "<snippet name=\"b\"><linkedPlot>x</linkedPlot><equation>$$ghost$$</equation></snippet>" ++
      "<snippet name=\"c\"><equation>value</equation></snippet></customMathEquations>",
      _, _, _, _, rfl, rfl, rfl, rfl, by decide +kernel⟩
  obtain ⟨hdone₁, hdone₂, hdone₃, hdone₄⟩ := hdone
  have h₁ := @Reachable.add {} _ r₀ ⟨"a", "x", "", "value"⟩ .empty
  rw [← ha] at h₁
  have h₂ := (h₁ (Attempt.returns_of_map hdone₁ (by simp))).add a.2.1 ⟨"b", "x", "", "value"⟩
  rw [← hb] at h₂
  have h₃ := (h₂ (Attempt.returns_of_map hdone₂ (by simp))).add b.2.1 ⟨"z", "x", "", "value"⟩
  rw [← hz] at h₃
  have hs := h₃ (Attempt.returns_of_map hdone₃ (by simp))
  have hload : z.1.loadDocument z.2.1 text = (loaded.1, loaded.2.1, .done failures) := by
    rw [← hloaded, ← hdone₄]
  have hresult := document_loaded_definition_by_definition hs z.2.1 text
  refine ⟨z.1, loaded.1, z.2.1, loaded.2.1, text, hs, hnames, hdefinitions, hload, hnames', ?_⟩
  cases hm : Document.readDefinitions text with
  | error e =>
    rw [hm] at hnew
    cases hnew
  | ok m =>
    rw [hm] at hnew hresult
    obtain ⟨_, -, -, -, -, hrest⟩ := hresult _ _ _ hload (by simp)
    exact hrest "z" (Option.some.inj hnew)

end DerivedSignal
