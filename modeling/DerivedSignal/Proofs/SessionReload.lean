import DerivedSignal.Proofs.DocumentRoundTrip
import DerivedSignal.Proofs.LoadOrder
import DerivedSignal.TransformSet

namespace DerivedSignal

open Transform Definition

/-- The sessions that come from an empty one by adding definitions: `saved` are those that it holds, in
the order in which they were added, and `replaced` those that have given way to others of their names. -/
inductive AddRun (limits : Limits) (r₀ : Registry) :
    TransformSet → Registry → List Definition → List Definition → Prop
  | empty : AddRun limits r₀ (TransformSet.empty limits) r₀ [] []
  | add {s r saved replaced d s' r' t} : AddRun limits r₀ s r saved replaced →
      s.add r d = (s', r', .done t) →
      AddRun limits r₀ s' r' ((saved.filter fun e => e.name ≠ d.name) ++ [d])
        (replaced ++ saved.filter fun e => e.name = d.name)

/-- The series that some definitions read. -/
def seen (limits : Limits) (ds : List Definition) : List String := ds.flatMap (reads limits)

/-- The order of the names is as good as the one in which definitions were added: no definition that was
replaced has written a series that is read, and those that clash were added in the order of their names. -/
structure Orderly (limits : Limits) (saved replaced : List Definition) : Prop where
  replaced : ∀ d ∈ replaced, ∀ q ∈ writes limits d, q ∉ seen limits saved
  ordered : saved.Pairwise fun d e => Clash limits (seen limits saved) d e → d.name < e.name

namespace TransformSet

variable {s s' : TransformSet} {r r' u : Registry} {d : Definition} {t : Transform Session}

theorem remove_transforms (s : TransformSet) (r : Registry) (name : String) :
    (s.remove r name).1 = { s with transforms := s.transforms.erase name } := by
  unfold remove
  split
  next => rfl
  next hnone =>
    have hsame : s.transforms.erase name = s.transforms := by
      refine NameMap.ext_find? fun q => ?_
      rw [NameMap.find?_erase]
      split
      next hq => exact hq ▸ hnone.symm
      next => rfl
    rw [hsame]

theorem enroll_eq (s : TransformSet) (r : Registry) (t : Transform Session) :
    s.enroll r t = match t.startOver r with
      | (t', r', .done _) =>
        ({ s with transforms := s.transforms.insert t.definition.name t' }, r', .done t')
      | (_, r', .failed e) =>
        (s, r', .failed (.context ("Failed to evaluate '" ++ t.definition.name ++ "'") e))
      | (_, r', .abort why) => (s, r', .abort why) :=
  rfl

theorem add_eq (h : compiled? d (Session.new s.limits) = some t) (r : Registry) :
    s.add r d = (s.remove r d.name).1.enroll (s.remove r d.name).2 t := by
  unfold add
  rw [compiled?_eq_some_iff.mp h]

theorem sameSignal_startOver (t : Transform Session) (r : Registry) :
    SameSignal t (t.startOver r).1 := by
  have hregistered : SameSignal t (t.register r).1 := ⟨rfl, rfl, rfl⟩
  exact hregistered.trans (sameSignal_update _ _)

/-- A signal joins the session after its first pass, in the place of an older one. -/
theorem add_eq_done (h : s.add r d = (s', r', .done t)) :
    ∃ fresh n, compiled? d (Session.new s.limits) = some fresh ∧
      fresh.startOver (s.remove r d.name).2 = (t, r', .done n) ∧ SameSignal fresh t ∧
      s' = { s with transforms := (s.transforms.erase d.name).insert d.name t } := by
  cases hc : (compile d (Session.new s.limits)).2 with
  | abort why => simp [add, hc] at h
  | failed e => simp [add, hc] at h
  | done fresh =>
    have hcompiled := compiled?_eq_some_iff.mpr hc
    rw [add_eq hcompiled, enroll_eq, definition_of_compiled? hcompiled, remove_transforms] at h
    have hsame := sameSignal_startOver fresh (s.remove r d.name).2
    generalize hpass : fresh.startOver (s.remove r d.name).2 = result at h hsame
    obtain ⟨t', u, outcome⟩ := result
    cases outcome with
    | abort why => cases h
    | failed e => cases h
    | done n =>
      cases h
      exact ⟨fresh, n, hcompiled, hpass, hsame, rfl⟩

theorem add_of_load (hnew : s.find? d.name = none) (h : load s.limits d r = some u) :
    ∃ t, s.add r d = ({ s with transforms := s.transforms.insert d.name t }, u, .done t) ∧
      t.definition = d := by
  obtain ⟨fresh, t, n, hc, hpass⟩ := load_eq_some_iff.mp h
  have hremove : s.remove r d.name = (s, r) := by
    simp only [remove, hnew]
  have hd := definition_of_compiled? hc
  have hsame := sameSignal_startOver fresh r
  rw [hpass] at hsame
  refine ⟨t, ?_, hsame.definition.trans hd⟩
  rw [add_eq hc, hremove, enroll_eq, hpass, hd]

end TransformSet

namespace AddRun

variable {limits : Limits} {r₀ r : Registry} {s : TransformSet} {saved replaced : List Definition}

theorem limits_eq (h : AddRun limits r₀ s r saved replaced) : s.limits = limits := by
  induction h with
  | empty => rfl
  | add _ hadd ih =>
    obtain ⟨-, -, -, -, -, rfl⟩ := TransformSet.add_eq_done hadd
    exact ih

theorem distinct (h : AddRun limits r₀ s r saved replaced) :
    saved.Pairwise fun d e => d.name ≠ e.name := by
  induction h with
  | empty => exact List.Pairwise.nil
  | add _ _ ih =>
    refine List.pairwise_append.mpr ⟨ih.filter _, List.pairwise_singleton _ _, ?_⟩
    intro e he d hd
    cases List.mem_singleton.mp hd
    simpa using (List.mem_filter.mp he).2

end AddRun

namespace AddRun

/-- What a session holds and what has been replaced in it, after one more definition. -/
def record (kept : List Definition × List Definition) (d : Definition) :
    List Definition × List Definition :=
  ((kept.1.filter fun e => e.name ≠ d.name) ++ [d], kept.2 ++ kept.1.filter fun e => e.name = d.name)

variable {limits : Limits} {r₀ r r' : Registry} {s s' : TransformSet}
  {saved replaced : List Definition}

theorem addAll {ds : List Definition} (h : AddRun limits r₀ s r saved replaced)
    (hadd : s.addAll r ds = (s', r', .done [])) :
    AddRun limits r₀ s' r' (ds.foldl record (saved, replaced)).1
      (ds.foldl record (saved, replaced)).2 := by
  induction ds generalizing s r saved replaced with
  | nil =>
    cases hadd
    exact h
  | cons d ds ih =>
    unfold TransformSet.addAll at hadd
    split at hadd
    next => cases hadd
    next s₁ r₁ e _ =>
      obtain ⟨failures, -, hfailures⟩ := Attempt.of_map_eq_done (congrArg (·.2.2) hadd)
      cases hfailures
    next s₁ r₁ t hd => exact ih (h.add hd) hadd

end AddRun

open AddRun (record)

end DerivedSignal
