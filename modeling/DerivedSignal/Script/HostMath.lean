import DerivedSignal.Script.Failure

namespace DerivedSignal

namespace Script

/-- What a call of a built-in function gives. -/
inductive Outcome where
  /-- A result. -/
  | done (v : Value)
  /-- A result, and the new value of the first argument. -/
  | changed (v first : Value)
  /-- A fault. -/
  | failed (f : Fault)
  /-- The call is outside the domain of the function, which ends the whole program. -/
  | abort

namespace HostMath

open FloatMath

/-- One of -1, 0 and 1; zero for NaN. -/
def sign (x : Float) : Float := if x > 0 then 1 else if x < 0 then -1 else 0

/-- At least `lo`, then at most `hi`; NaN gives way to either. -/
def clamp (x lo hi : Float) : Float := minimum (maximum x lo) hi

/-- The point between `a` and `b` at the fraction `t`. -/
def lerp (a b t : Float) : Float := a + (b - a) * t

/-- The point of one range that corresponds to `x` in another. -/
def mapRange (x inLo inHi outLo outHi : Float) : Float :=
  outLo + (x - inLo) * (outHi - outLo) / (inHi - inLo)

/-- A step of exponential smoothing. -/
def smooth (current previous alpha : Float) : Float :=
  if previous.isNaN then current
  else
    let alpha := clampTo alpha 0 1
    alpha * previous + (1 - alpha) * current

/-- A step of a first-order lowpass. -/
def lowpass (current previous cutoff dt : Float) : Float :=
  if previous.isNaN || dt ≤ 0 || cutoff ≤ 0 then current
  else
    let rc := 1 / (tau * cutoff)
    previous + (current - previous) * dt / (rc + dt)

/-- A step that changes by at most `maxRate * dt`; nothing if that is negative or NaN. -/
def rateLimit? (current previous maxRate dt : Float) : Option Float :=
  if previous.isNaN || dt ≤ 0 then some current
  else
    let step := maxRate * dt
    if -step ≤ step then some (previous + clampTo (current - previous) (-step) step) else none

/-- The centre of a band for what lies inside it. -/
def deadband (x center width : Float) : Float :=
  if (x - center).abs < width / 2 then center else x

/-- The functions of one argument. -/
def unary? : String → Option (Float → Float)
  | "abs" => some Float.abs
  | "sqrt" => some Float.sqrt
  | "cbrt" => some Float.cbrt
  | "exp" => some Float.exp
  | "ln" => some Float.log
  | "log" => some Float.log
  | "log10" => some Float.log10
  | "log2" => some Float.log2
  | "sin" => some Float.sin
  | "cos" => some Float.cos
  | "tan" => some Float.tan
  | "asin" => some Float.asin
  | "acos" => some Float.acos
  | "atan" => some Float.atan
  | "sinh" => some Float.sinh
  | "cosh" => some Float.cosh
  | "tanh" => some Float.tanh
  | "floor" => some Float.floor
  | "ceil" => some Float.ceil
  | "round" => some Float.round
  | "trunc" => some truncate
  | "fract" => some fraction
  | "sign" => some sign
  | _ => none

/-- The functions of two arguments. -/
def binary? : String → Option (Float → Float → Float)
  | "pow" => some Float.pow
  | "atan2" => some Float.atan2
  | "hypot" => some hypotenuse
  | "min" => some minimum
  | "max" => some maximum
  | _ => none

/-- The functions of three arguments. -/
def ternary? : String → Option (Float → Float → Float → Float)
  | "clamp" => some clamp
  | "lerp" => some lerp
  | "smooth" => some smooth
  | "deadband" => some deadband
  | _ => none

/-- The functions of four arguments; nothing for arguments outside the domain. -/
def quaternary? : String → Option (Float → Float → Float → Float → Option Float)
  | "lowpass" => some fun a b c d => some (lowpass a b c d)
  | "rate_limit" => some rateLimit?
  | _ => none

/-- The questions about one number. -/
def predicate? : String → Option (Float → Bool)
  | "is_nan" => some Float.isNaN
  | "is_finite" => some Float.isFinite
  | "is_infinite" => some Float.isInf
  | _ => none

/-- The double of an argument. -/
def number (v : Value) : Except Fault Float :=
  match v.toFloat? with
  | some x => .ok x
  | none => .error (.ofText ("expected a number, got '" ++ v.resultName ++ "'"))

/-- The doubles of the arguments, or the fault of the first that is no number. -/
def numbers : List Value → Except Fault (List Float)
  | [] => .ok []
  | v :: vs =>
    match number v with
    | .error f => .error f
    | .ok x => (numbers vs).map (x :: ·)

/-- The result of a function on numbers; nothing if no function of that name takes that many. -/
def onNumbers? (name : String) : List Float → Option Outcome
  | [] =>
    match name with
    | "pi" => some (.done (.float pi))
    | "e" => some (.done (.float eulerNumber))
    | _ => none
  | [a] =>
    match unary? name, predicate? name with
    | some f, _ => some (.done (.float (f a)))
    | none, some f => some (.done (.bool (f a)))
    | none, none => none
  | [a, b] => (binary? name).map fun f => .done (.float (f a b))
  | [a, b, c] => (ternary? name).map fun f => .done (.float (f a b c))
  | [a, b, c, d] => (quaternary? name).map fun f =>
      match f a b c d with
      | some x => .done (.float x)
      | none => .abort
  | [a, b, c, d, e] =>
    if name = "map_range" then some (.done (.float (mapRange a b c d e))) else none
  | _ => none

/-- Whether there is a function of that name for so many arguments. -/
def takes (name : String) (count : Nat) : Bool := (onNumbers? name (List.replicate count 0)).isSome

/-- The call of a mathematical function; nothing if there is none. -/
def call? (name : String) (arguments : List Value) : Option Outcome :=
  if takes name arguments.length then
    match numbers arguments with
    | .error f => some (.failed f)
    | .ok xs => onNumbers? name xs
  else none

end HostMath

end Script

end DerivedSignal
