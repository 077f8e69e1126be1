import DerivedSignal.Number.Decimal
import DerivedSignal.Number.FloatMath

namespace DerivedSignal

namespace NumberText

/-- Writes the magnitude of a finite double by `form` and puts the sign, of zero too, before it. -/
def signed (b : Binary) (form : Decimal → String) : String :=
  (if b.negative then "-" else "") ++ form (Decimal.shortest b)

/-- The text of an infinity or NaN. -/
def nonFinite (x : Float) : String :=
  if x.isNaN then "NaN" else if x > 0 then "inf" else "-inf"

/-- A point and a zero after a whole number. -/
def withPoint (d : Decimal) : String :=
  if d.exponent ≥ 0 then d.positional ++ ".0" else d.positional

/-- The text in errors: the shortest digits in their places, never an exponent, no forced point. -/
def plain (x : Float) : String :=
  match Binary.ofFloat? x with
  | some b => signed b Decimal.positional
  | none => nonFinite x

/-- Magnitudes above this one are written with an exponent by scripts. -/
def scriptUpper : Float := 9999999827968

/-- Magnitudes below this one are written with an exponent by scripts: `10^-13` in single
precision. -/
def scriptLower : Float := Float.ofBits 0x3d3c25c260000000

/-- The text of a script's float: whole numbers have `.0`, very large and very small ones an
exponent, and a zero no sign. -/
def script (x : Float) : String :=
  match Binary.ofFloat? x with
  | none => nonFinite x
  | some b =>
    if b.significand = 0 then "0.0"
    else if x.abs > scriptUpper || x.abs < scriptLower then signed b Decimal.scientific
    else signed b withPoint

end NumberText

end DerivedSignal
