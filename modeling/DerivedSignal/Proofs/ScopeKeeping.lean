import DerivedSignal.Script.Machine
import Mathlib

namespace DerivedSignal

namespace Script

/-- The name of a variable, and whether it is a constant. -/
def Slot.label (s : Slot) : String × Bool := (s.name, s.constant)

/-- The variable at a place is a constant or hidden by a newer one. -/
def Fixed (labels : List (String × Bool)) (i : Nat) : Prop :=
  ∃ l, labels[i]? = some l ∧ (l.2 = true ∨ ∃ k ∈ labels.take i, k.1 = l.1)

/-- No newer variable hides the one at a place. -/
def Newest (labels : List (String × Bool)) (i : Nat) : Prop :=
  ∀ l, labels[i]? = some l → ∀ k ∈ labels.take i, k.1 ≠ l.1

/-- The variables are still the same, and the fixed ones have their values. -/
structure Keeps (before after : List Slot) : Prop where
  labels : after.map Slot.label = before.map Slot.label
  values : ∀ i, Fixed (before.map Slot.label) i → after[i]? = before[i]?

namespace Keeps

variable {before between after : List Slot}

theorem refl (l : List Slot) : Keeps l l := ⟨rfl, fun _ _ => rfl⟩

theorem trans (h : Keeps before between) (h' : Keeps between after) : Keeps before after :=
  ⟨h'.labels.trans h.labels, fun i hi => (h'.values i (h.labels ▸ hi)).trans (h.values i hi)⟩

theorem length (h : Keeps before after) : after.length = before.length := by
  simpa using congrArg List.length h.labels

end Keeps

theorem fixed_of_drop {labels : List (String × Bool)} {n i : Nat} (h : Fixed (labels.drop n) i) :
    Fixed labels (n + i) := by
  obtain ⟨l, hl, h⟩ := h
  rw [List.getElem?_drop] at hl
  refine ⟨l, hl, h.imp id ?_⟩
  rintro ⟨k, hk, hname⟩
  refine ⟨k, List.mem_of_mem_drop (i := n) ?_, hname⟩
  rwa [List.drop_take, Nat.add_sub_cancel_left]

theorem Keeps.drop {before after : List Slot} (h : Keeps before after) (n : Nat) :
    Keeps (before.drop n) (after.drop n) where
  labels := by rw [List.map_drop, List.map_drop, h.labels]
  values i hi := by
    rw [List.map_drop] at hi
    rw [List.getElem?_drop, List.getElem?_drop]
    exact h.values (n + i) (fixed_of_drop hi)

/-- A variable that is not fixed can get another value. -/
theorem keeps_modify {scope : List Slot} {i : Nat} (h : ¬ Fixed (scope.map Slot.label) i) (v : Value) :
    Keeps scope (scope.modify i fun s => { s with value := v }) where
  labels := by
    apply List.ext_getElem?
    intro j
    rw [List.getElem?_map, List.getElem?_map, List.getElem?_modify]
    split
    · cases scope[j]? <;> rfl
    · simp
  values j hj := by
    have hne : i ≠ j := fun heq => h (heq ▸ hj)
    rw [List.getElem?_modify_ne _ _ hne]

/-- The oldest variables of a scope. -/
def oldest (n : Nat) (scope : List Slot) : List Slot := scope.drop (scope.length - n)

theorem oldest_length (scope : List Slot) : oldest scope.length scope = scope := by
  simp [oldest]

theorem oldest_append {new old : List Slot} {n : Nat} (h : n ≤ old.length) :
    oldest n (new ++ old) = oldest n old := by
  rw [oldest, oldest, List.length_append, Nat.add_sub_assoc h, List.drop_append]
  simp

/-- What happens to a scope stays within the variables above the `base` oldest ones, but for new values. -/
def Below (base : Nat) (before after : List Slot) : Prop :=
  base ≤ before.length → base ≤ after.length ∧ Keeps (oldest base before) (oldest base after)

theorem Below.trans {base : Nat} {before between after : List Slot} (h : Below base before between)
    (h' : Below base between after) : Below base before after := by
  intro hbase
  obtain ⟨hbetween, hkeeps⟩ := h hbase
  obtain ⟨hafter, hkeeps'⟩ := h' hbetween
  exact ⟨hafter, hkeeps.trans hkeeps'⟩

theorem Keeps.below {before after : List Slot} (h : Keeps before after) (base : Nat) :
    Below base before after := by
  intro hbase
  have hlength := h.length
  refine ⟨by omega, ?_⟩
  rw [oldest, oldest, hlength]
  exact h.drop _

theorem Below.keeps {before after : List Slot} (h : Below before.length before after) :
    Keeps before (oldest before.length after) := by
  obtain ⟨-, hkeeps⟩ := h le_rfl
  rwa [oldest_length] at hkeeps

instance : IsPreorder (List Slot) Keeps where
  refl := Keeps.refl
  trans _ _ _ := Keeps.trans

instance (base : Nat) : IsPreorder (List Slot) (Below base) where
  refl l := (Keeps.refl l).below base
  trans _ _ _ := Below.trans

/-- A new variable is above all others. -/
theorem below_cons {base : Nat} (s : Slot) (scope : List Slot) : Below base scope (s :: scope) := by
  intro hbase
  refine ⟨by simp only [List.length_cons]; omega, ?_⟩
  rw [← List.singleton_append, oldest_append hbase]
  exact Keeps.refl _

/-- A variable above the `base` oldest ones may become another one. -/
theorem below_set {base i : Nat} {scope : List Slot} (hi : i < scope.length - base) (s : Slot) :
    Below base scope (scope.set i s) := by
  intro hbase
  refine ⟨by rwa [List.length_set], ?_⟩
  rw [oldest, oldest, List.length_set, List.drop_set, if_pos hi]
  exact Keeps.refl _

end Script

end DerivedSignal
