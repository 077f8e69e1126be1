import DerivedSignal.Number.Binary

namespace DerivedSignal

namespace FloatMath

/-- Positive infinity. -/
def infinity : Float := Float.ofBits 0x7ff0000000000000

/-- Negative infinity. -/
def negInfinity : Float := Float.ofBits 0xfff0000000000000

/-- Not a number. -/
def nan : Float := Float.ofBits 0x7ff8000000000000

/-- The circle constant. -/
def pi : Float := Float.ofBits 0x400921fb54442d18

/-- Twice the circle constant. -/
def tau : Float := Float.ofBits 0x401921fb54442d18

/-- The base of the natural logarithm. -/
def eulerNumber : Float := Float.ofBits 0x4005bf0a8b145769

/-- The nearer of the two integers around `x` toward zero; the sign of a zero is kept. -/
def truncate (x : Float) : Float :=
  if x < 0 then x.ceil else x.floor

/-- The part of `x` that truncation drops. -/
def fraction (x : Float) : Float :=
  x - truncate x

/-- The remainder of the division toward zero, exact, with the sign of the dividend. -/
def remainder (x y : Float) : Float :=
  match Binary.ofFloat? x, Binary.ofFloat? y with
  | some a, some b =>
    if b.significand = 0 then nan
    else
      let e := min a.exponent b.exponent
      let dividend := a.significand * twoTo (a.exponent - e).toNat
      let divisor := b.significand * twoTo (b.exponent - e).toNat
      Binary.toFloat ⟨a.negative, dividend % divisor, e⟩
  | some _, none => if y.isNaN then nan else x
  | none, _ => nan

/-- The double `2^e`. -/
def twoPow (e : Int) : Float := Binary.toFloat ⟨false, 1, e⟩

/-- The square root of `a * a + b * b` for `a ≥ b ≥ 0` of moderate size: the rounded root, less
one correction by its residue over twice the root. -/
def correctedRoot (a b : Float) : Float :=
  let h := (a * a + b * b).sqrt
  if h ≤ 2 * b then
    let d := h - b
    h - (a * (2 * d - a) + (d - 2 * (a - b)) * d) / (2 * h)
  else
    let d := h - a
    h - (2 * d * (a - 2 * b) + ((4 * d - b) * b + d * d)) / (2 * h)

/-- The length of the hypotenuse. An infinite side wins over NaN; a side below half a unit of the
other is added to it; sides whose squares would leave the range are scaled first. -/
def hypotenuse (x y : Float) : Float :=
  if x.isInf || y.isInf then infinity
  else if x.isNaN || y.isNaN then nan
  else
    let a := if x.abs < y.abs then y.abs else x.abs
    let b := if x.abs < y.abs then x.abs else y.abs
    if a > twoPow 511 then
      if b ≤ a * twoPow (-54) then a + b
      else correctedRoot (a * twoPow (-600)) (b * twoPow (-600)) / twoPow (-600)
    else if b < twoPow (-459) then
      if a ≥ b / twoPow (-54) then a + b
      else correctedRoot (a / twoPow (-600)) (b / twoPow (-600)) * twoPow (-600)
    else if b ≤ a * twoPow (-54) then a + b
    else correctedRoot a b

/-- The greater of two numbers; NaN gives way to the other. -/
def maximum (x y : Float) : Float :=
  if x.isNaN then y else if y > x then y else x

/-- The lesser of two numbers; NaN gives way to the other. -/
def minimum (x y : Float) : Float :=
  if x.isNaN then y else if y < x then y else x

/-- The nearest point of an interval; NaN stays NaN. -/
def clampTo (x lo hi : Float) : Float :=
  if x < lo then lo else if x > hi then hi else x

/-- The double nearest to an integer. -/
def ofInt (n : Int) : Float :=
  Binary.toFloat ⟨n < 0, n.natAbs, 0⟩

/-- The integer that truncation gives; nothing for an infinity or NaN. -/
def toInt? (x : Float) : Option Int :=
  (Binary.ofFloat? x).map fun b =>
    let magnitude : Nat := if b.exponent ≥ 0 then b.significand * twoTo b.exponent.toNat
      else b.significand / twoTo (-b.exponent).toNat
    if b.negative then -(magnitude : Int) else magnitude

end FloatMath

end DerivedSignal
