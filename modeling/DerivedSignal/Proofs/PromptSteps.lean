import DerivedSignal.Proofs.RunEndings
import DerivedSignal.Script.Eval

namespace DerivedSignal

namespace Script

/-- A computation that comes to an end without an operation. -/
def Prompt {α : Type} (r : Run α) : Prop :=
  ∀ m, (r m).1 ≠ .error .exhausted ∧ (r m).2.steps = m.steps

namespace Prompt

variable {α β : Type} {r : Run α} {k : α → Run β}

theorem pure (a : α) : Prompt (Pure.pure a : Run α) := fun _ => ⟨by rintro ⟨⟩, rfl⟩

theorem throw {e : Interrupt} (h : e ≠ .exhausted) : Prompt (MonadExcept.throw e : Run α) :=
  fun _ => ⟨fun he => h (Except.error.inj he), rfl⟩

theorem fail (f : Fault) (p : Position) : Prompt (Script.fail f p : Run α) := throw (by simp)

theorem get : Prompt (MonadState.get : Run Machine) := fun _ => ⟨by rintro ⟨⟩, rfl⟩

theorem modify {f : Machine → Machine} (h : ∀ m, (f m).steps = m.steps) : Prompt (modify f : Run Unit) :=
  fun m => ⟨by rintro ⟨⟩, h m⟩

theorem bind (h : Prompt r) (hk : ∀ a, Prompt (k a)) : Prompt (r >>= k) := by
  intro m
  obtain ⟨hends, hsteps⟩ := h m
  rcases hr : r m with ⟨e | a, m'⟩ <;> simp only [hr] at hends hsteps
  · rw [Ends.bind_of_error hr]
    exact ⟨fun he => hends (Except.error.inj he ▸ rfl), hsteps⟩
  · rw [Ends.bind_of_ok hr]
    exact ⟨(hk a m').1, (hk a m').2.trans hsteps⟩

end Prompt

section Prompt

variable (c : Setting) (p : Position)

theorem prompt_checkExtent (e : Value.Extent) : Prompt (checkExtent c e p) := by
  unfold checkExtent
  split_ifs
  · exact .fail _ _
  · exact .fail _ _
  · exact .fail _ _
  · exact .pure _

theorem prompt_checkSize (v : Value) : Prompt (checkSize c v p) := prompt_checkExtent c p v.extent

theorem prompt_slotOf (name : String) : Prompt (slotOf name p) := by
  refine Prompt.get.bind fun m => ?_
  split
  next => exact .pure _
  next => exact .fail _ _

theorem prompt_readSlot (i : Nat) : Prompt (readSlot i) := Prompt.get.bind fun _ => .pure _

theorem prompt_writeSlot (i : Nat) (v : Value) : Prompt (writeSlot i v) := .modify fun _ => rfl

theorem prompt_pushSlot (s : Slot) : Prompt (pushSlot s) := .modify fun _ => rfl

theorem prompt_declare (base : Nat) (s : Slot) : Prompt (declare base s) := by
  refine .modify fun m => ?_
  split <;> rfl

theorem prompt_combine (operator : Option String) (old new : Value) : Prompt (combine operator old new p) := by
  unfold combine
  split
  next => exact .pure _
  next =>
    split
    next => exact .pure _
    next => exact .pure _
    next => exact .fail _ _
    next => exact .throw (by simp)
    next => exact .fail _ _

theorem prompt_read (t : Target) : Prompt t.read := by
  cases t with
  | part i path => exact (prompt_readSlot i).bind fun _ => .pure _
  | loose v => exact .pure _

theorem prompt_write (t : Target) (v : Value) : Prompt (t.write v) := by
  cases t with
  | part i path => exact (prompt_readSlot i).bind fun _ => prompt_writeSlot i _
  | loose v => exact .pure _

theorem prompt_isConstant (t : Target) : Prompt t.isConstant := by
  cases t with
  | part i path => exact (prompt_readSlot i).bind fun _ => .pure _
  | loose v => exact .pure _

theorem prompt_enterIndex (t : Target) (key : Value) (bracket : Position) :
    Prompt (enterIndex t key p bracket) := by
  refine (prompt_read t).bind fun v => ?_
  split
  next =>
    split
    next => exact .pure _
    next => exact .fail _ _
  next =>
    split
    next => exact .pure _
    next => exact .pure _
  next =>
    split
    next => exact .pure _
    next => exact .fail _ _
  next =>
    split
    next => exact .pure _
    next => exact .fail _ _
  all_goals exact .fail _ _

theorem prompt_enterProperty (t : Target) (name : String) : Prompt (enterProperty t name p) := by
  refine (prompt_read t).bind fun v => ?_
  split
  next =>
    split
    next => exact .pure _
    next => exact .pure _
  next =>
    split
    next => exact .pure _
    next => exact .fail _ _
  next =>
    split
    next => exact .pure _
    next => exact .fail _ _
  next => exact .fail _ _

theorem prompt_assignPart (operator : Option String) (t : Target) (k : Key) (old : Option Value) (new : Value) :
    Prompt (assignPart c operator t k old new p) := by
  have hrest : Prompt (do
      let v ← combine operator (old.getD .unit) new p
      (t.enter k (old.getD .unit)).write v
      if operator.isSome then checkSize c v p else checkSize c (← t.read) p) := by
    refine (prompt_combine p operator _ new).bind fun v => ?_
    refine (prompt_write _ v).bind fun _ => ?_
    split
    · exact prompt_checkSize c p v
    · exact (prompt_read t).bind fun _ => prompt_checkSize c p _
  unfold assignPart
  dsimp only
  split
  next => exact (prompt_write _ .unit).bind fun _ => hrest
  next => exact hrest

theorem prompt_assignStep (operator : Option String) (t : Target) (s : Step) (new : Value) :
    Prompt (assignStep c operator t s new p) := by
  refine (prompt_read t).bind fun container => ?_
  split
  next =>
    split
    next => exact prompt_assignPart c p operator t _ _ new
    next => exact .fail _ _
  next => exact prompt_assignPart c p operator t _ _ new
  next =>
    split
    next =>
      refine (prompt_combine p operator _ new).bind fun v => ?_
      split
      next => exact prompt_write t _
      next => exact .fail _ _
    next => exact .fail _ _
  next =>
    split
    next =>
      refine (prompt_combine p operator _ new).bind fun v => ?_
      split
      next => exact prompt_write t _
      next => exact .fail _ _
    next => exact .fail _ _
  next => exact .fail _ _
  next => exact .fail _ _
  next => exact .fail _ _
  next => exact .fail _ _
  next => exact .fail _ _
  next => exact prompt_assignPart c p operator t _ _ new
  next =>
    split
    next => exact .fail _ _
    next => exact .fail _ _
  next => exact .pure _

theorem prompt_callBuiltin (name : String) (arguments : List Value) (first : Option Target) :
    Prompt (callBuiltin c name arguments first p) := by
  unfold callBuiltin
  split
  next => exact .fail _ _
  next => exact .fail _ _
  next => exact .throw (by simp)
  next => exact (prompt_checkSize c p _).bind fun _ => .pure _
  next => exact (prompt_checkSize c p _).bind fun _ => .pure _
  next t _ =>
    refine (prompt_read t).bind fun _ => ?_
    refine (prompt_checkSize c p _).bind fun _ => ?_
    exact (prompt_checkSize c p _).bind fun _ => .pure _
  next v new t _ =>
    have hwrite : Prompt (do
        t.write new
        checkSize c new p
        checkSize c v p
        return v) := by
      refine (prompt_write t new).bind fun _ => ?_
      refine (prompt_checkSize c p _).bind fun _ => ?_
      exact (prompt_checkSize c p _).bind fun _ => .pure _
    refine (prompt_isConstant t).bind fun constant => ?_
    split
    next => exact (Prompt.fail _ _).bind fun _ => hwrite
    next => exact hwrite

end Prompt

/-- Fuel for what one operation may lead to: the body of a function, or another round of a loop. -/
noncomputable def Setting.stride (c : Setting) : Nat := 2 * sizeOf c.functions + 3

/-- Fuel for what the operations that the limit still allows may lead to. -/
noncomputable def Setting.reserve (c : Setting) (m : Machine) : Nat :=
  (c.limits.maxOperations + 1 - m.steps) * c.stride

theorem three_le_stride (c : Setting) : 3 ≤ c.stride := by
  unfold Setting.stride
  omega

/-- A computation that comes to an end with its fuel, and does not give an operation back. -/
structure Settled {α : Type} (c : Setting) (r : Run α) (m : Machine) : Prop where
  ends : (r m).1 ≠ .error .exhausted
  reserve : c.reserve (r m).2 ≤ c.reserve m

namespace Settled

variable {α β : Type} {c : Setting} {r : Run α} {k : α → Run β} {m : Machine}

theorem of_prompt (h : Prompt r) : Settled c r m :=
  ⟨(h m).1, by rw [Setting.reserve, (h m).2]; rfl⟩

theorem pure (a : α) : Settled c (Pure.pure a : Run α) m := of_prompt (.pure a)

theorem throw {e : Interrupt} (h : e ≠ .exhausted) : Settled c (MonadExcept.throw e : Run α) m :=
  of_prompt (.throw h)

theorem fail (f : Fault) (p : Position) : Settled c (Script.fail f p : Run α) m := of_prompt (.fail f p)

/-- After a computation another one starts where the first one ends, with no more operations left. -/
theorem bind_ok (h : Settled c r m)
    (hk : ∀ a m', r m = (.ok a, m') → c.reserve m' ≤ c.reserve m → Settled c (k a) m') :
    Settled c (r >>= k) m := by
  obtain ⟨hends, hreserve⟩ := h
  rcases hr : r m with ⟨e | a, m'⟩ <;> simp only [hr] at hends hreserve
  · have hend := Ends.bind_of_error (k := k) hr
    exact ⟨by rw [hend]; exact fun he => hends (Except.error.inj he ▸ rfl), by rw [hend]; exact hreserve⟩
  · have hnext := hk a m' hr hreserve
    have hend := Ends.bind_of_ok (k := k) hr
    exact ⟨by rw [hend]; exact hnext.ends, by rw [hend]; exact hnext.reserve.trans hreserve⟩

theorem bind (h : Settled c r m) (hk : ∀ a m', c.reserve m' ≤ c.reserve m → Settled c (k a) m') :
    Settled c (r >>= k) m :=
  h.bind_ok fun a m' _ => hk a m'

theorem after (h : Prompt r) (hk : ∀ a m', c.reserve m' ≤ c.reserve m → Settled c (k a) m') :
    Settled c (r >>= k) m :=
  (of_prompt h).bind hk

/-- An operation that the limit allows takes a stride from the reserve. -/
theorem after_tick (hc : c.limits.maxOperations ≠ 0) {k : Unit → Run β} {p : Position}
    (hk : ∀ m', c.reserve m' + c.stride ≤ c.reserve m → Settled c (k ()) m') : Settled c (tick c p >>= k) m := by
  have htick : tick c p m = (if Limits.exceeds c.limits.maxOperations (m.steps + 1) then
      Script.fail .tooManyOperations p else Pure.pure () : Run Unit) { m with steps := m.steps + 1 } := rfl
  by_cases hover : Limits.exceeds c.limits.maxOperations (m.steps + 1)
  · rw [if_pos hover] at htick
    have hend := Ends.bind_of_error (k := k) htick
    refine ⟨by rw [hend]; rintro ⟨⟩, ?_⟩
    rw [hend]
    exact Nat.mul_le_mul_right _ (by simp only; omega)
  · rw [if_neg hover] at htick
    have hsteps : m.steps + 1 ≤ c.limits.maxOperations := by
      simpa [Limits.exceeds, hc] using hover
    have hreserve : c.reserve { m with steps := m.steps + 1 } + c.stride = c.reserve m := by
      simp only [Setting.reserve]
      rw [← Nat.succ_mul]
      congr 1
      omega
    have hnext := hk _ hreserve.le
    have hend := Ends.bind_of_ok (k := k) htick
    exact ⟨by rw [hend]; exact hnext.ends, by rw [hend]; exact hnext.reserve.trans (by omega)⟩

theorem within {r : Run α} (h : Settled c r m) : Settled c (Script.within r) m := ⟨h.ends, h.reserve⟩

theorem apart {r : Run α} {scope : List Slot} (h : Settled c r { m with scope }) :
    Settled c (Script.apart scope r) m := ⟨h.ends, h.reserve⟩

theorem called {r : Run Value} (h : Settled c r m) (name : String) (p : Position) :
    Settled c (Script.called name p r) m := by
  obtain ⟨hends, hreserve⟩ := h
  refine ⟨?_, ?_⟩ <;> unfold Script.called <;> split <;> simp_all

theorem once {r : Run Value} (h : Settled c r m) : Settled c (Script.once r) m := by
  obtain ⟨hends, hreserve⟩ := h
  refine ⟨?_, ?_⟩ <;> unfold Script.once <;> split <;> simp_all

theorem handling {r : Run Value} (h : Settled c r m) (f : Failure) : Settled c (Script.handling f r) m := by
  obtain ⟨hends, hreserve⟩ := h
  refine ⟨?_, ?_⟩ <;> unfold Script.handling <;> split <;> simp_all

theorem rescue {r : Run Value} {handler : Failure → Run Value} (h : Settled c r m)
    (hhandler : ∀ f m', c.reserve m' ≤ c.reserve m → Settled c (handler f) m') :
    Settled c (Script.rescue r handler) m := by
  obtain ⟨hends, hreserve⟩ := h
  refine ⟨?_, ?_⟩ <;> unfold Script.rescue <;> split
  next f m' hr =>
    rw [hr] at hreserve
    split
    next => rintro ⟨⟩
    next => exact (hhandler f m' hreserve).ends
  next => exact hends
  next f m' hr =>
    rw [hr] at hreserve
    split
    next => exact hreserve
    next => exact (hhandler f m' hreserve).reserve.trans hreserve
  next => exact hreserve

end Settled

end Script

end DerivedSignal
