import DerivedSignal.Proofs.Custody

namespace DerivedSignal

open Transform

/-- One name is the other with a point or a slash behind it, and anything after that. -/
def Extends (short long : String) : Prop :=
  ∃ c rest, (c = '.' ∨ c = '/') ∧ long.toList = short.toList ++ c :: rest

namespace OutputShape

theorem outputNames_extend {shape : OutputShape} {base q : String} (h : q ∈ shape.outputNames base) :
    q = base ∨ Extends base q := by
  cases shape with
  | scalar => exact .inl (List.mem_singleton.mp h)
  | vector size =>
    obtain ⟨i, -, rfl⟩ := List.mem_map.mp h
    exact .inr ⟨'.', (toString i).toList, .inl rfl, by simp⟩
  | keyed keys =>
    obtain ⟨k, -, rfl⟩ := List.mem_map.mp h
    exact .inr ⟨'/', k.toList, .inr rfl, by simp⟩

/-- The rest of an output's name behind the name of its signal. -/
theorem outputNames_toList {shape : OutputShape} {base q : String} (h : q ∈ shape.outputNames base) :
    ∃ tail, q.toList = base.toList ++ tail ∧ ∀ c rest, tail = c :: rest → c = '.' ∨ c = '/' := by
  rcases outputNames_extend h with rfl | ⟨c, rest, hc, hq⟩
  · exact ⟨[], by simp, fun c rest h => by cases h⟩
  · refine ⟨c :: rest, hq, fun c' rest' h => ?_⟩
    cases h
    exact hc

/-- A common output of two signals makes one of their names continue the other. -/
theorem extends_of_common_output {a b : OutputShape} {m n q : String} (hm : q ∈ a.outputNames m)
    (hn : q ∈ b.outputNames n) : m = n ∨ Extends m n ∨ Extends n m := by
  obtain ⟨u, hu, hus⟩ := outputNames_toList hm
  obtain ⟨v, hv, hvs⟩ := outputNames_toList hn
  rcases List.append_eq_append_iff.mp (hu.symm.trans hv) with ⟨w, hw, htail⟩ | ⟨w, hw, htail⟩
  · cases w with
    | nil => exact .inl (String.toList_injective (by simpa using hw.symm))
    | cons c rest => exact .inr (.inl ⟨c, rest, hus c _ htail, hw⟩)
  · cases w with
    | nil => exact .inl (String.toList_injective (by simpa using hw))
    | cons c rest => exact .inr (.inr ⟨c, rest, hvs c _ htail, hw⟩)

end OutputShape

namespace TransformSet

variable {s s' : TransformSet} {r r' : Registry} {d : Definition}

/-- The outputs that adding a definition drops or writes: none if it does not compile, else those of the
signal it replaces, and its own if its first pass succeeds. -/
def claimedBy (s : TransformSet) (d : Definition) (outcome : Attempt (Transform Session)) : List String :=
  match compiled? d (Session.new s.limits), outcome with
  | none, _ => []
  | some fresh, .done _ => s.outputsOf d.name ++ fresh.outputs
  | some _, _ => s.outputsOf d.name

theorem find?_of_add {outcome : Attempt (Transform Session)} (h : s.add r d = (s', r', outcome))
    (hn : outcome.Returns) {q : String} (hq : q ∉ s.claimedBy d outcome) : r'.find? q = r.find? q := by
  cases addition_of_add h hn with
  | uncompiled => rfl
  | undone hc =>
    simp only [claimedBy, hc] at hq
    rw [find?_remove, if_neg hq]
  | joined hc _ _ hr =>
    simp only [claimedBy, hc, List.mem_append, not_or] at hq
    rw [hr q hq.2, find?_remove, if_neg hq.1]

end TransformSet

namespace Custody

variable {limits : Limits} {r₀ r : Registry} {written : List String} {s : TransformSet}

/-- The outputs of a signal of the set have names made from the name that it stands under. -/
theorem outputNames (h : Custody limits r₀ written s r) {n q : String} (hq : q ∈ s.outputsOf n) :
    ∃ shape : OutputShape, q ∈ shape.outputNames n := by
  cases ht : s.find? n with
  | none => simp [TransformSet.outputsOf, ht] at hq
  | some t =>
    rw [TransformSet.outputsOf_of_find? ht, Transform.outputs, h.name n t ht] at hq
    exact ⟨t.shape, hq⟩

theorem extends_of_claimed (h : Custody limits r₀ written s r) {d : Definition}
    {outcome : Attempt (Transform Session)} {m q : String} (hm : q ∈ s.outputsOf m)
    (hq : q ∈ s.claimedBy d outcome) : m = d.name ∨ Extends m d.name ∨ Extends d.name m := by
  obtain ⟨a, ha⟩ := h.outputNames hm
  have hold : q ∈ s.outputsOf d.name → m = d.name ∨ Extends m d.name ∨ Extends d.name m := fun hd => by
    obtain ⟨b, hb⟩ := h.outputNames hd
    exact OutputShape.extends_of_common_output ha hb
  unfold TransformSet.claimedBy at hq
  split at hq
  next => cases hq
  next fresh _ hc =>
    rcases List.mem_append.mp hq with hd | hd
    · exact hold hd
    · rw [Transform.outputs, definition_of_compiled? hc] at hd
      exact OutputShape.extends_of_common_output ha hd
  next => exact hold hq

end Custody

/-- What removing the signal of a name and adding a definition of that name do to the outputs of another
signal: all but the common ones stay as they are, so all stay if neither name continues the other. -/
theorem other_outputs_kept {limits : Limits} {r₀ r : Registry} {s : TransformSet} {written : List String}
    (h : SetRun limits r₀ s r written) {m n : String} {t : Transform Session} (ht : s.find? m = some t)
    (hne : m ≠ n) :
    (∀ q ∈ t.outputs,
      (s.remove r n).2.find? q = if q ∈ s.outputsOf n then none else r.find? q) ∧
    (∀ d : Definition, d.name = n → (s.add r d).2.2.Returns →
      ∀ q ∈ t.outputs, q ∉ s.claimedBy d (s.add r d).2.2 → (s.add r d).2.1.find? q = r.find? q) ∧
    (¬ Extends m n → ¬ Extends n m → ∀ q ∈ t.outputs, (s.remove r n).2.find? q = r.find? q ∧
      ∀ d : Definition, d.name = n → (s.add r d).2.2.Returns →
        (s.add r d).2.1.find? q = r.find? q) := by
  refine ⟨fun q _ => TransformSet.find?_remove s r n q,
    fun d _ hn q _ hq => TransformSet.find?_of_add rfl hn hq, fun hmn hnm q hq => ?_⟩
  have hcustody := h.custody
  rw [← TransformSet.outputsOf_of_find? ht] at hq
  have hapart : ¬ (m = n ∨ Extends m n ∨ Extends n m) := by simp [hne, hmn, hnm]
  constructor
  · have hother : q ∉ s.outputsOf n := fun hn => by
      obtain ⟨a, ha⟩ := hcustody.outputNames hq
      obtain ⟨b, hb⟩ := hcustody.outputNames hn
      exact hapart (OutputShape.extends_of_common_output ha hb)
    rw [TransformSet.find?_remove, if_neg hother]
  · rintro d rfl hn
    exact TransformSet.find?_of_add rfl hn fun hd => hapart (hcustody.extends_of_claimed hq hd)

/-- A signal with an array as its result, and a signal of the name of that array's first output. -/
theorem SetRun.array_and_number :
    ∃ (s : TransformSet) (r : Registry) (t : Transform Session) (written : List String),
      SetRun {} (NameMap.empty.insert "x" ⟨[⟨0, 1⟩], none⟩) s r written ∧ s.find? "f" = some t ∧
      t.outputs = ["f.0", "f.1"] ∧ s.outputsOf "f.0" = ["f.0"] ∧ r.contains "f.0" = true := by
  let r₀ : Registry := NameMap.empty.insert "x" ⟨[⟨0, 1⟩], none⟩
  let array : Definition := ⟨"f", "x", "", "[value, value]"⟩
  let number : Definition := ⟨"f.0", "x", "", "value"⟩
  obtain ⟨one, both, e₁, e₂, hone, hboth, hfind, hnumber, hpresent⟩ : ∃ one both,
      one = (TransformSet.empty {}).add r₀ array ∧ both = one.1.add one.2.1 number ∧
      one.2.2.map (·.outputs) = .done ["f.0", "f.1"] ∧ both.2.2.map (·.outputs) = .done ["f.0"] ∧
      (both.1.find? "f").map (·.outputs) = some ["f.0", "f.1"] ∧
      both.1.outputsOf "f.0" = ["f.0"] ∧ both.2.1.contains "f.0" = true :=
    ⟨_, _, rfl, rfl, by decide +kernel⟩
  have h₁ := @SetRun.add {} r₀ _ _ _ array .empty
  rw [← e₁] at h₁
  have h₂ := (h₁ (Attempt.returns_of_map hone (by simp))).add number
  rw [← e₂] at h₂
  have hrun := h₂ (Attempt.returns_of_map hboth (by simp))
  obtain ⟨t, ht, houtputs⟩ := Option.map_eq_some_iff.mp hfind
  exact ⟨both.1, both.2.1, t, _, hrun, ht, houtputs, hnumber, hpresent⟩

/-- The first output of the array goes with the signal of its name. -/
theorem removal_takes_shared_output :
    ∃ (s : TransformSet) (r : Registry) (t : Transform Session) (written : List String),
      SetRun {} (NameMap.empty.insert "x" ⟨[⟨0, 1⟩], none⟩) s r written ∧ s.find? "f" = some t ∧
      "f.0" ∈ t.outputs ∧ r.contains "f.0" = true ∧
      (s.remove r "f.0").2.contains "f.0" = false := by
  obtain ⟨s, r, t, written, hrun, ht, houtputs, hnumber, hpresent⟩ := SetRun.array_and_number
  refine ⟨s, r, t, written, hrun, ht, by simp [houtputs], hpresent, ?_⟩
  rw [Registry.contains_eq_false_iff, TransformSet.find?_remove, if_pos (by simp [hnumber])]

/-- The array keeps its second output, and against a signal of an unrelated name it keeps both. -/
theorem other_outputs_kept_array :
    ∃ (s : TransformSet) (r : Registry) (t : Transform Session) (written : List String),
      SetRun {} (NameMap.empty.insert "x" ⟨[⟨0, 1⟩], none⟩) s r written ∧ s.find? "f" = some t ∧
      t.outputs = ["f.0", "f.1"] ∧ (s.remove r "f.0").2.find? "f.1" = r.find? "f.1" ∧
      ∀ q ∈ t.outputs, (s.remove r "g").2.find? q = r.find? q := by
  obtain ⟨s, r, t, written, hrun, ht, houtputs, hnumber, -⟩ := SetRun.array_and_number
  have hkept := (other_outputs_kept hrun ht (show "f" ≠ "f.0" by decide)).1
  have hapart : ¬ Extends "f" "g" ∧ ¬ Extends "g" "f" := by
    constructor <;> rintro ⟨c, rest, -, hlong⟩ <;> cases hlong
  refine ⟨s, r, t, written, hrun, ht, houtputs, ?_, fun q hq => ?_⟩
  · simpa [hnumber] using hkept "f.1" (by simp [houtputs])
  · exact ((other_outputs_kept hrun ht (show "f" ≠ "g" by decide)).2.2 hapart.1 hapart.2 q hq).1

end DerivedSignal
