import DerivedSignal.Number.Binary

namespace DerivedSignal

/-- The number `digits * 10^exponent`. -/
structure Decimal where
  digits : Nat
  exponent : Int
  deriving DecidableEq, Repr

namespace Decimal

/-- The quotient `n / d` scaled by `10^(-k)`, as a fraction. -/
def scaled (n d : Nat) (k : Int) : Nat × Nat :=
  if k ≥ 0 then (n, d * tenTo k.toNat) else (n * tenTo (-k).toNat, d)

/-- The greatest `k` with `10^k ≤ n / d`, searched downward from `start`. -/
def leadingPlace (n d : Nat) : Nat → Int → Int
  | 0, start => start
  | fuel + 1, start =>
    let (a, b) := scaled n d start
    if b ≤ a then start else leadingPlace n d fuel (start - 1)

/-- The reals that round to `m * 2^q`, in units of `2^(q - 2)`, and whether the ends belong. -/
structure Interval where
  low : Nat
  value : Nat
  high : Nat
  closed : Bool

/-- The rounding interval of a positive double; it is narrower below a power of two. -/
def Interval.of (b : Binary) : Interval :=
  let m := b.significand
  { low := if m = twoTo 52 ∧ b.exponent > -1074 then 4 * m - 1 else 4 * m - 2
    value := 4 * m
    high := 4 * m + 2
    closed := m % 2 = 0 }

/-- Whether the fraction `n / d` lies in the interval scaled by `num / den`. -/
def Interval.holds (i : Interval) (candidate num den : Nat) : Bool :=
  let c := candidate * den
  if i.closed then i.low * num ≤ c && c ≤ i.high * num else i.low * num < c && c < i.high * num

/-- The grid point of `10^k` next to the value that lies in the interval, the nearer of two. -/
def gridPoint? (i : Interval) (unit : Int) (k : Int) : Option Nat :=
  let power : Nat × Nat := if unit ≥ 0 then (twoTo unit.toNat, 1) else (1, twoTo (-unit).toNat)
  let (num, den) := scaled power.1 power.2 k
  let below := i.value * num / den
  let above := below + 1
  match i.holds below num den && below ≠ 0, i.holds above num den with
  | true, true =>
    let gap := i.value * num - below * den
    let gap' := above * den - i.value * num
    some (if gap < gap' ∨ (gap = gap' ∧ below % 2 = 0) then below else above)
  | true, false => some below
  | false, true => some above
  | false, false => none

/-- The first of the grids from `10^k` downward that holds a point of the interval. -/
def firstGrid (i : Interval) (unit : Int) : Nat → Int → Decimal
  | 0, k => ⟨i.value, k⟩
  | fuel + 1, k =>
    match gridPoint? i unit k with
    | some d => ⟨d, k⟩
    | none => firstGrid i unit fuel (k - 1)

/-- Trailing zeros moved into the exponent. -/
def strip (d : Decimal) : Nat → Decimal
  | 0 => d
  | fuel + 1 => if d.digits ≠ 0 ∧ d.digits % 10 = 0 then
      strip ⟨d.digits / 10, d.exponent + 1⟩ fuel else d

/-- The fewest digits that read back as the magnitude, the nearest of those. -/
def shortest (b : Binary) : Decimal :=
  if b.significand = 0 then ⟨0, 0⟩
  else
    let power : Nat × Nat :=
      if b.exponent ≥ 0 then (b.significand * twoTo b.exponent.toNat, 1)
      else (b.significand, twoTo (-b.exponent).toNat)
    let start := (b.significand.log2 + b.exponent) * 3 / 10 + 2
    let top := leadingPlace power.1 power.2 400 start
    strip (firstGrid (Interval.of b) (b.exponent - 2) 18 top) 20

/-- The exponent of the leading digit. -/
def leading (d : Decimal) : Int :=
  d.exponent + ((Nat.toDigits 10 d.digits).length : Int) - 1

/-- The digits before and after the point, all in their places. -/
def places (d : Decimal) : List Char × List Char :=
  let digits := Nat.toDigits 10 d.digits
  if d.exponent ≥ 0 then (digits ++ List.replicate d.exponent.toNat '0', [])
  else
    let after := (-d.exponent).toNat
    let padded := List.replicate (after + 1 - digits.length) '0' ++ digits
    (padded.take (padded.length - after), padded.drop (padded.length - after))

/-- The leading digit and the digits after it. -/
def mantissa (d : Decimal) : List Char × List Char :=
  match Nat.toDigits 10 d.digits with
  | [] => ([], [])
  | c :: cs => ([c], cs)

/-- Digits with a point between them if any follow. -/
def pointed : List Char × List Char → List Char
  | (whole, []) => whole
  | (whole, fraction) => whole ++ '.' :: fraction

/-- All digits in their places, without an exponent. -/
def positional (d : Decimal) : String := String.ofList (pointed d.places)

/-- One digit before the point and the exponent of that digit after `e`. -/
def scientific (d : Decimal) : String :=
  String.ofList (pointed d.mantissa) ++ "e" ++ toString d.leading

end Decimal

end DerivedSignal
