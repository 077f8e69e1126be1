import DerivedSignal.Number.Power

namespace DerivedSignal

/-- The number `(-1)^negative * significand * 2^exponent`. -/
structure Binary where
  negative : Bool
  significand : Nat
  exponent : Int
  deriving DecidableEq, Repr

namespace Binary

/-- The value of a finite double; nothing for an infinity or NaN. -/
def ofFloat? (x : Float) : Option Binary :=
  let bits : Nat := x.toBits.toNat
  let field : Nat := bits / twoTo 52 % twoTo 11
  let fraction : Nat := bits % twoTo 52
  let negative := bits / twoTo 63 == 1
  if field = twoTo 11 - 1 then none
  else if field = 0 then some ⟨negative, fraction, -1074⟩
  else some ⟨negative, fraction + twoTo 52, (field : Int) - 1075⟩

/-- The nearest multiple after dropping `drop` binary digits of `n`, ties to even. -/
def roundShift (n drop : Nat) : Nat :=
  let kept := n / twoTo drop
  let rest := 2 * (n % twoTo drop)
  if rest > twoTo drop ∨ (rest = twoTo drop ∧ kept % 2 = 1) then kept + 1 else kept

/-- The bits of the double nearest to `n * 2^e`, ties to even, infinity above the largest. -/
def magnitudeBits (n : Nat) (e : Int) : Nat :=
  if n = 0 then 0
  else
    let least := max (e + (n.log2 : Int) - 52) (-1074)
    let kept := if e ≥ least then n * twoTo (e - least).toNat else roundShift n (least - e).toNat
    if kept < twoTo 52 then kept
    else min ((least + 1074).toNat * twoTo 52 + kept) (2047 * twoTo 52)

/-- The double nearest to a binary number, ties to even. -/
def toFloat (b : Binary) : Float :=
  let bits := magnitudeBits b.significand b.exponent
  Float.ofBits (UInt64.ofNat (if b.negative then twoTo 63 + bits else bits))

end Binary

end DerivedSignal
