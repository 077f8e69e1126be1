import DerivedSignal.Error

namespace DerivedSignal

/-- Why an attempt has no outcome. -/
inductive Breakdown where
  /-- The whole program ends. -/
  | panic
  /-- It goes on for ever. -/
  | endless
  deriving DecidableEq

/-- An attempt fails with an error, is done with a result, or has no outcome. -/
inductive Attempt (α : Type) where
  | abort (why : Breakdown)
  | failed (e : Error)
  | done (a : α)
  deriving DecidableEq

namespace Attempt

variable {α β : Type}

/-- The attempt of something that fails or is done. -/
def ofExcept : Except Error α → Attempt α
  | .ok a => done a
  | .error e => failed e

/-- Whether an attempt has an outcome. -/
def Returns : Attempt α → Prop
  | abort _ => False
  | failed _ | done _ => True

@[simp] theorem not_returns_abort (why : Breakdown) : ¬ (abort why : Attempt α).Returns := id

@[simp] theorem returns_failed (e : Error) : (failed e : Attempt α).Returns := trivial

@[simp] theorem returns_done (a : α) : (done a).Returns := trivial

/-- Changes the result. -/
def map (f : α → β) : Attempt α → Attempt β
  | abort why => abort why
  | failed e => failed e
  | done a => done (f a)

theorem map_id (a : Attempt α) : a.map (fun x => x) = a := by
  cases a <;> rfl

theorem exists_abort_of_not_returns {a : Attempt α} (h : ¬ a.Returns) : ∃ why, a = abort why := by
  cases a with
  | abort why => exact ⟨why, rfl⟩
  | failed e => exact absurd trivial h
  | done v => exact absurd trivial h

@[simp] theorem returns_map {f : α → β} {a : Attempt α} : (a.map f).Returns ↔ a.Returns := by
  cases a <;> rfl

theorem map_map {γ : Type} (f : α → β) (g : β → γ) (a : Attempt α) :
    (a.map f).map g = a.map (fun x => g (f x)) := by
  cases a <;> rfl

/-- Changes the error. -/
def mapError (f : Error → Error) : Attempt α → Attempt α
  | failed e => failed (f e)
  | a => a

end Attempt

end DerivedSignal
