import DerivedSignal.Number.Decimal
import DerivedSignal.Number.FloatMath

namespace DerivedSignal

namespace Json

/-- A number literal by its parts; an empty fraction stands for none. -/
structure Numeral where
  negative : Bool
  whole : List Char
  fraction : List Char
  exponent : Option Int
  deriving DecidableEq, Repr

/-- A JSON value. A text is absent if it holds half a surrogate pair. -/
inductive Value where
  | null
  | bool (b : Bool)
  | number (n : Numeral)
  | string (text : Option String)
  | array (items : List Value)
  | object (members : List (Option String × Value))

namespace Value

/-- A text. -/
def ofString (s : String) : Value := .string (some s)

/-- An object with texts for its keys. -/
def ofMembers (members : List (String × Value)) : Value :=
  .object (members.map fun m => (some m.1, m.2))

end Value

namespace Numeral

/-- The literal of a natural number. -/
def ofNat (n : Nat) : Numeral := ⟨false, Nat.toDigits 10 n, [], none⟩

/-- The literal of a finite double: the shortest digits that read back, in their places with at
least one after the point while the leading one is between `10^-5` and `10^15`, otherwise with an
exponent. -/
def ofFloat? (x : Float) : Option Numeral :=
  (Binary.ofFloat? x).map fun b =>
    let d := Decimal.shortest b
    if -5 ≤ d.leading ∧ d.leading ≤ 15 then
      match d.places with
      | (whole, []) => ⟨b.negative, whole, ['0'], none⟩
      | (whole, fraction) => ⟨b.negative, whole, fraction, none⟩
    else
      let (whole, fraction) := d.mantissa
      ⟨b.negative, whole, fraction, some d.leading⟩

/-- The value of a digit. -/
def digit (c : Char) : Nat := c.toNat - '0'.toNat

/-- Appends digits to a number while it stays below `2^64`; what is left over begins with the
first digit that did not fit. -/
def gather : Nat → List Char → Nat × List Char
  | n, [] => (n, [])
  | n, c :: cs =>
    if n * 10 + digit c < twoTo 64 then gather (n * 10 + digit c) cs else (n, c :: cs)

/-- The double nearest to a power of ten. -/
def power (k : Nat) : Float := FloatMath.ofInt (tenTo k)

/-- Scales by a power of ten in one rounded step, and in several for very small results; nothing if
the result is infinite. -/
def scale : Nat → Float → Int → Option Float
  | 0, x, _ => some x
  | steps + 1, x, e =>
    if e.natAbs ≤ 308 then
      if e ≥ 0 then
        let y := x * power e.natAbs
        if y.isInf then none else some y
      else some (x / power e.natAbs)
    else if x == 0 then some x
    else if e ≥ 0 then none
    else scale steps (x / power 308) (e + 308)

/-- The double that a literal stands for. Digits are gathered while they fit 64 bits; later ones
before the point count as zeros and later ones behind it are dropped. An integer that fits is
rounded to the nearest double, anything else scaled by its power of ten. -/
def toFloat? (n : Numeral) : Option Float :=
  let (significand, rest) := gather 0 n.whole
  let (significand, left) := gather significand n.fraction
  let exponent : Int := rest.length - (n.fraction.length - left.length : Nat) + n.exponent.getD 0
  let start := FloatMath.ofInt significand
  let magnitude :=
    if rest.isEmpty && n.fraction.isEmpty && n.exponent.isNone then some start
    else scale 4 start exponent
  magnitude.map fun x => if n.negative then -x else x

/-- The number below `2^64` that a literal without sign, fraction and exponent stands for. -/
def toNat? (n : Numeral) : Option Nat :=
  if n.negative || !n.fraction.isEmpty || n.exponent.isSome then none
  else
    match gather 0 n.whole with
    | (value, []) => some value
    | _ => none

end Numeral

namespace Value

/-- A double; infinities and NaN become null. -/
def ofFloat (x : Float) : Value :=
  match Numeral.ofFloat? x with
  | some n => .number n
  | none => .null

/-- A natural number. -/
def ofNat (n : Nat) : Value := .number (Numeral.ofNat n)

end Value

end Json

end DerivedSignal
