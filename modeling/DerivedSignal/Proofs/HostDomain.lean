import DerivedSignal.Script.Builtin
import DerivedSignal.Proofs.FloatSubtraction

namespace DerivedSignal

namespace FloatOrder

open Float.Model Float.Model.UnpackedFloat FloatRounding

/-- A double of the other sign stands opposite. -/
theorem place_neg (x : Float) : place (-x) = (place x).map (- ·) := by
  have hneg : place (-x) = rank (stored x.toModel.unpack.neg) := rfl
  rw [hneg, place]
  by_cases hf : x.isFinite = true
  · obtain ⟨z, hz⟩ := multiple_of_isFinite hf
    generalize x.toModel.unpack = u at hz
    cases hz with
    | zero s => cases s <;> rfl
    | finite s hm hc he =>
      rw [UnpackedFloat.neg, stored_finite (-s) hm hc he]
      cases s with
      | positive => rfl
      | negative => simp [rank, ← toLex_neg]
  · have hf : ¬ x.toModel.unpack.isFinite = true := hf
    generalize x.toModel.unpack = u at hf
    cases u with
    | notANumber => rfl
    | infinity s => cases s <;> rfl
    | zero s => exact absurd rfl hf
    | finite s => exact absurd rfl hf

theorem neg_le_self_iff {x : Float} : -x ≤ x ↔ 0 ≤ x := by
  have hzero : nearestPlace 0 = 0 := rfl
  rw [le_iff, le_iff, place_neg, place_zero, hzero]
  cases place x with
  | none => simp
  | some p => simp

theorem not_nonneg_iff {x : Float} : ¬ 0 ≤ x ↔ x < 0 ∨ x.isNaN = true := by
  rw [le_iff, lt_iff, isNaN_iff, place_zero]
  cases place x with
  | none => simp
  | some p => simp

end FloatOrder

namespace Script

/-- The arguments of a `rate_limit` for which there is no step: numbers, of which the previous value is not
NaN and the time is not at most zero, while the greatest step is negative or NaN. -/
def OutOfDomain (arguments : List Value) : Prop :=
  ∃ current previous maxRate dt, HostMath.numbers arguments = .ok [current, previous, maxRate, dt] ∧
    previous.isNaN = false ∧ ¬ dt ≤ 0 ∧ (maxRate * dt < 0 ∨ (maxRate * dt).isNaN = true)

namespace HostMath

theorem rateLimit?_eq_none {current previous maxRate dt : Float} :
    rateLimit? current previous maxRate dt = none ↔
      previous.isNaN = false ∧ ¬ dt ≤ 0 ∧ (maxRate * dt < 0 ∨ (maxRate * dt).isNaN = true) := by
  rw [← FloatOrder.not_nonneg_iff, ← FloatOrder.neg_le_self_iff, rateLimit?]
  cases previous.isNaN with
  | true => simp
  | false =>
    by_cases htime : dt ≤ 0
    · simp [htime]
    · by_cases hstep : -(maxRate * dt) ≤ maxRate * dt <;> simp [htime, hstep]

theorem onNumbers?_eq_abort {name : String} {xs : List Float} :
    onNumbers? name xs = some .abort ↔
      name = "rate_limit" ∧ ∃ a b c d, xs = [a, b, c, d] ∧ rateLimit? a b c d = none := by
  unfold onNumbers?
  split
  next => split <;> simp
  next => split <;> simp
  next => simp
  next => simp
  next a b c d =>
    unfold quaternary?
    split
    next => simp
    next =>
      rw [Option.map_some]
      cases hstep : rateLimit? a b c d <;> simp [hstep]
    next => simp_all
  next => split <;> simp
  next h _ =>
    refine ⟨fun hnone => by (cases hnone), ?_⟩
    rintro ⟨-, a, b, c, d, hxs, -⟩
    exact absurd hxs (h a b c d)

/-- The numbers are those of the arguments, one by one. -/
theorem numbers_cons {v : Value} {vs : List Value} {xs : List Float} (h : numbers (v :: vs) = .ok xs) :
    ∃ x ys, number v = .ok x ∧ numbers vs = .ok ys ∧ xs = x :: ys := by
  rw [numbers] at h
  split at h
  next => cases h
  next x hx =>
    cases hvs : numbers vs with
    | error f => simp [hvs, Except.map] at h
    | ok ys =>
      rw [hvs] at h
      cases h
      exact ⟨x, ys, hx, rfl, rfl⟩

theorem length_numbers {arguments : List Value} {xs : List Float} (h : numbers arguments = .ok xs) :
    xs.length = arguments.length := by
  induction arguments generalizing xs with
  | nil =>
    cases h
    rfl
  | cons v vs ih =>
    obtain ⟨x, ys, -, hys, rfl⟩ := numbers_cons h
    simp [ih hys]

theorem outOfDomain_iff {arguments : List Value} :
    OutOfDomain arguments ↔ ∃ a b c d, numbers arguments = .ok [a, b, c, d] ∧ rateLimit? a b c d = none := by
  simp only [OutOfDomain, rateLimit?_eq_none]

/-- A mathematical function is never outside its domain, but for `rate_limit`. -/
theorem call?_eq_abort {name : String} {arguments : List Value} :
    call? name arguments = some .abort ↔ name = "rate_limit" ∧ OutOfDomain arguments := by
  have htakes : takes "rate_limit" 4 = true := rfl
  rw [outOfDomain_iff]
  unfold call?
  cases hnumbers : numbers arguments with
  | error f => split <;> simp
  | ok xs =>
    simp only [Except.ok.injEq]
    split
    next => exact onNumbers?_eq_abort
    next hnone =>
      refine ⟨fun h => by (cases h), ?_⟩
      rintro ⟨rfl, a, b, c, d, rfl, -⟩
      rw [← length_numbers hnumbers] at hnone
      exact absurd htakes hnone

end HostMath

namespace Builtin

theorem checked_ne_abort (n : Int) (text : String) : checked n text ≠ .abort := by
  unfold checked
  split <;> simp

theorem power_ne_abort (a b : Int) : power a b ≠ .abort := by
  unfold power
  simp only
  split_ifs <;> simp [checked_ne_abort]

theorem toInt_ne_abort (x : Float) : toInt x ≠ .abort := by
  unfold toInt
  split
  · simp
  · split <;> simp

theorem particular?_rate_limit (arguments : List Value) :
    particular? "rate_limit" arguments = none := by
  unfold particular?
  split <;> simp_all

theorem extremum?_ne_abort (greatest : Bool) (a b : Value) : extremum? greatest a b ≠ some .abort := by
  unfold extremum?
  split <;> simp

theorem particular?_ne_abort (name : String) (arguments : List Value) :
    particular? name arguments ≠ some .abort := by
  unfold particular?
  split <;> simp [checked_ne_abort, toInt_ne_abort, extremum?_ne_abort]

theorem sign?_ne_abort (name : String) (v : Value) : sign? name v ≠ some .abort := by
  unfold sign?
  split <;> simp [checked_ne_abort]

theorem onInts?_ne_abort (operator : String) (a b : Int) : onInts? operator a b ≠ some .abort := by
  unfold onInts?
  split <;> simp [checked_ne_abort, power_ne_abort]
  split <;> simp

theorem onFloats?_ne_abort (operator : String) (x y : Float) : onFloats? operator x y ≠ some .abort := by
  unfold onFloats?
  split <;> simp

theorem onMixed?_ne_abort (operator : String) (x y : Float) : onMixed? operator x y ≠ some .abort := by
  unfold onMixed?
  split
  · simp
  · exact onFloats?_ne_abort operator x y

theorem compare?_ne_abort (operator : String) (equal less : Bool) :
    compare? operator equal less ≠ some .abort := by
  unfold compare?
  split <;> simp

theorem equate?_ne_abort (operator : String) (equal : Bool) : equate? operator equal ≠ some .abort := by
  unfold equate?
  split <;> simp

theorem unlike?_ne_abort (operator : String) : unlike? operator ≠ some .abort := by
  unfold unlike?
  split_ifs <;> simp

theorem binary?_ne_abort (operator : String) (a b : Value) : binary? operator a b ≠ some .abort := by
  unfold binary?
  split <;> (try split_ifs) <;>
    simp [onInts?_ne_abort, onMixed?_ne_abort, onFloats?_ne_abort, compare?_ne_abort, equate?_ne_abort,
      unlike?_ne_abort]
  split <;> simp [compare?_ne_abort]

theorem assign?_ne_abort (operator : String) (old value : Value) :
    assign? operator old value ≠ some .abort := by
  unfold assign?
  split
  · split <;> simp [checked_ne_abort]
  · simp
  · simp
  · exact binary?_ne_abort operator old value

/-- An operator or built-in function is outside its domain only as a `rate_limit` without a step. -/
theorem call?_eq_abort {name : String} {arguments : List Value} :
    call? name arguments = some .abort ↔ name = "rate_limit" ∧ OutOfDomain arguments := by
  rw [← HostMath.call?_eq_abort]
  unfold call?
  split
  next outcome hparticular =>
    constructor
    · rintro ⟨⟩
      exact absurd hparticular (particular?_ne_abort name arguments)
    · intro h
      rw [(HostMath.call?_eq_abort.mp h).1, particular?_rate_limit] at hparticular
      cases hparticular
  next =>
    split
    next outcome h => rw [h]
    next h =>
      rw [h]
      split <;> simp [sign?_ne_abort, binary?_ne_abort]

end Builtin

end Script

end DerivedSignal
