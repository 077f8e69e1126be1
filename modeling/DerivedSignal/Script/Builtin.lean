import DerivedSignal.Script.HostMath
import DerivedSignal.Script.Lexer

namespace DerivedSignal

namespace Script

namespace Builtin

/-- An integer result, or a fault if it leaves 64 bits. -/
def checked (n : Int) (text : String) : Outcome :=
  match inIntegerRange? n with
  | some n => .done (.int n)
  | none => .failed (.arithmetic text)

/-- The application of an operator in error texts. -/
def written (a : Int) (operator : String) (b : Int) : String :=
  toString a ++ " " ++ operator ++ " " ++ toString b

/-- The power of an integer; exponents beyond 32 bits are refused. -/
def power (a b : Int) : Outcome :=
  let overflow := "Exponential overflow: " ++ written a "**" b
  if b ≥ twoTo 32 then .failed (.arithmetic overflow)
  else if b < 0 then .failed (.arithmetic ("Integer raised to a negative power: " ++ written a "**" b))
  else if a = 0 ∨ a = 1 ∨ a = -1 then checked (Int.pow a (if b = 0 then 0 else 2 - b.toNat % 2)) overflow
  else if b ≥ 64 then .failed (.arithmetic overflow)
  else checked (Int.pow a b.toNat) overflow

/-- The signed 64-bit integer that agrees with `n` in its low 64 bits. -/
def wrap (n : Int) : Int := Lexer.ofBits (n % twoTo 64).toNat

/-- Shifts to the left, for a negative distance to the right; no bit is left after 64 places. -/
def shift (a distance : Int) : Int :=
  if distance ≥ 0 then (if distance ≥ 64 then 0 else wrap (a * twoTo distance.toNat))
  else if distance ≤ -64 then (if a < 0 then -1 else 0)
  else a / twoTo (-distance).toNat

/-- The bit of an integer at a place, the lowest at 0. -/
def bit (n : Int) (place : Nat) : Bool := n / twoTo place % 2 == 1

/-- The integer with another bit at a place. -/
def withBit (n : Int) (place : Nat) (b : Bool) : Int :=
  if bit n place = b then n else wrap (if b then n + twoTo place else n - twoTo place)

/-- A bitwise operation on integers. -/
def bitwise (f : Int64 → Int64 → Int64) (a b : Int) : Int := (f (.ofInt a) (.ofInt b)).toInt

/-- The operators on two integers. -/
def onInts? (operator : String) (a b : Int) : Option Outcome :=
  match operator with
  | "+" => some (checked (a + b) ("Addition overflow: " ++ written a "+" b))
  | "-" => some (checked (a - b) ("Subtraction overflow: " ++ written a "-" b))
  | "*" => some (checked (a * b) ("Multiplication overflow: " ++ written a "*" b))
  | "/" => some (.done (.float (FloatMath.ofInt a / FloatMath.ofInt b)))
  | "%" =>
    if b = 0 ∨ (a = leastInteger ∧ b = -1) then
      some (.failed (.arithmetic ("Modulo division by zero or overflow: " ++ written a "%" b)))
    else some (.done (.int (a.tmod b)))
  | "**" => some (power a b)
  | "<<" => some (.done (.int (shift a b)))
  | ">>" => some (.done (.int (shift a (-b))))
  | "&" => some (.done (.int (bitwise (· &&& ·) a b)))
  | "|" => some (.done (.int (bitwise (· ||| ·) a b)))
  | "^" => some (.done (.int (bitwise (· ^^^ ·) a b)))
  | "==" => some (.done (.bool (a == b)))
  | "!=" => some (.done (.bool (a != b)))
  | "<" => some (.done (.bool (a < b)))
  | "<=" => some (.done (.bool (a ≤ b)))
  | ">" => some (.done (.bool (a > b)))
  | ">=" => some (.done (.bool (a ≥ b)))
  | ".." => some (.done (.range a b false))
  | "..=" => some (.done (.range a b true))
  | _ => none

/-- The distance between one and the next double. -/
def epsilon : Float := FloatMath.twoPow (-52)

/-- How far `x` is above `y`, relative to the greater magnitude, or absolutely if one is zero. -/
def excess (x y : Float) : Float :=
  (x - y) / (if x * y == 0 then 1 else FloatMath.maximum x.abs y.abs)

/-- The operators on two doubles. Comparison allows for a relative rounding error; where the excess
is not a number, no comparison holds. -/
def onFloats? (operator : String) (x y : Float) : Option Outcome :=
  match operator with
  | "+" => some (.done (.float (x + y)))
  | "-" => some (.done (.float (x - y)))
  | "*" => some (.done (.float (x * y)))
  | "/" => some (.done (.float (x / y)))
  | "%" => some (.done (.float (FloatMath.remainder x y)))
  | "**" => some (.done (.float (x.pow y)))
  | "==" => some (.done (.bool ((excess x y).abs ≤ epsilon)))
  | "!=" => some (.done (.bool ((excess x y).abs > epsilon)))
  | "<" => some (.done (.bool (excess y x > epsilon)))
  | "<=" => some (.done (.bool (excess y x > -epsilon)))
  | ">" => some (.done (.bool (excess x y > epsilon)))
  | ">=" => some (.done (.bool (excess x y > -epsilon)))
  | _ => none

/-- The operators on an integer and a double, with the integer widened. They are those on two
doubles, but `<=` and `>=` hold where the excess is not a number. -/
def onMixed? (operator : String) (x y : Float) : Option Outcome :=
  if (operator = "<=" || operator = ">=") && (excess x y).isNaN then some (.done (.bool true))
  else onFloats? operator x y

/-- The comparisons of two values of an ordered type. -/
def compare? (operator : String) (equal less : Bool) : Option Outcome :=
  match operator with
  | "==" => some (.done (.bool equal))
  | "!=" => some (.done (.bool !equal))
  | "<" => some (.done (.bool less))
  | "<=" => some (.done (.bool (less || equal)))
  | ">" => some (.done (.bool !(less || equal)))
  | ">=" => some (.done (.bool !less))
  | _ => none

/-- The equations between values that have no order. -/
def equate? (operator : String) (equal : Bool) : Option Outcome :=
  match operator with
  | "==" => some (.done (.bool equal))
  | "!=" => some (.done (.bool !equal))
  | _ => none

/-- Comparisons of what cannot be compared: nothing is equal, and nothing is less. -/
def unlike? (operator : String) : Option Outcome :=
  if operator = "!=" then some (.done (.bool true))
  else if ["==", "<", "<=", ">", ">="].contains operator then some (.done (.bool false))
  else none

mutual

/-- Whether two values are equal: numbers by the rule of their comparison, arrays and maps by their
parts. -/
def same : Value → Value → Bool
  | .unit, .unit => true
  | .bool a, .bool b => a == b
  | .int a, .int b => a == b
  | .int a, .float y => (excess (FloatMath.ofInt a) y).abs ≤ epsilon
  | .float x, .int b => (excess x (FloatMath.ofInt b)).abs ≤ epsilon
  | .float x, .float y => (excess x y).abs ≤ epsilon
  | .char a, .char b => a == b
  | .char a, .string b => a.toString == b
  | .string a, .char b => a == b.toString
  | .string a, .string b => a == b
  | .array a, .array b => sameItems a b
  | .map keys a, .map keys' b => keys == keys' && sameItems a b
  | .range a b c, .range a' b' c' => a == a' && b == b' && c == c'
  | _, _ => false

/-- Whether two lists of values are equal. -/
def sameItems : List Value → List Value → Bool
  | [], [] => true
  | a :: as, b :: bs => same a b && sameItems as bs
  | _, _ => false

end

/-- The union of two maps; the entries of the second one win. -/
def merge (a b : NameMap Value) : NameMap Value :=
  b.entries.foldl (fun m e => m.insert e.1 e.2) a

/-- What is left of a text without the occurrences of a part, searched from the left. Without a
part nothing is taken away, and an empty text leaves the part. -/
def without (s part : List Char) : List Char :=
  if part = [] then s else if s = [] then part else go s.length s
where
  /-- Takes the part away as long as there are characters. -/
  go : Nat → List Char → List Char
    | 0, s => s
    | _ + 1, [] => []
    | n + 1, c :: s =>
      if part.isPrefixOf (c :: s) then go n ((c :: s).drop part.length) else c :: go n s

/-- The application of a binary operator; nothing if it takes no such operands. -/
def binary? (operator : String) : Value → Value → Option Outcome
  | .int a, .int b => onInts? operator a b
  | .int a, .float y => onMixed? operator (FloatMath.ofInt a) y
  | .float x, .int b => onMixed? operator x (FloatMath.ofInt b)
  | .float x, .float y => onFloats? operator x y
  | .bool a, .bool b =>
    match operator with
    | "&" => some (.done (.bool (a && b)))
    | "|" => some (.done (.bool (a || b)))
    | "^" => some (.done (.bool (a != b)))
    | _ => compare? operator (a == b) (!a && b)
  | .string a, .string b =>
    if operator = "+" then some (.done (.string (a ++ b)))
    else if operator = "-" then some (.done (.string (String.ofList (without a.toList b.toList))))
    else compare? operator (a == b) (decide (a < b))
  | .string a, .char b =>
    if operator = "+" then some (.done (.string (a ++ b.toString)))
    else if operator = "-" then some (.done (.string (String.ofList (a.toList.filter (· != b)))))
    else compare? operator (a == b.toString) (decide (a < b.toString))
  | .char a, .string b =>
    if operator = "+" then some (.done (.string (a.toString ++ b)))
    else compare? operator (a.toString == b) (decide (a.toString < b))
  | .char a, .char b =>
    if operator = "+" then some (.done (.string (a.toString ++ b.toString)))
    else compare? operator (a == b) (a < b)
  | .string a, v => if operator = "+" then some (.done (.string (a ++ v.text))) else unlike? operator
  | v, .string b => if operator = "+" then some (.done (.string (v.text ++ b))) else unlike? operator
  | .unit, .unit =>
    if operator = "==" then some (.done (.bool true))
    else if operator = "!=" then some (.done (.bool false))
    else unlike? operator
  | .array a, .array b =>
    if operator = "+" then some (.done (.array (a ++ b)))
    else equate? operator (sameItems a b)
  | .map keys a, .map keys' b =>
    if operator = "+" then
      some (.done (.ofMap (merge (NameMap.zip keys a) (NameMap.zip keys' b))))
    else equate? operator (keys == keys' && sameItems a b)
  | .range a b c, .range a' b' c' => equate? operator (a == a' && b == b' && c == c')
  | _, _ => unlike? operator

/-- The application of a sign; nothing if it takes no such operand. -/
def sign? : String → Value → Option Outcome
  | "-", .int a => some (checked (-a) ("Negation overflow: -" ++ toString a))
  | "-", .float x => some (.done (.float (-x)))
  | "+", .int a => some (.done (.int a))
  | "+", .float x => some (.done (.float x))
  | "!", .bool b => some (.done (.bool !b))
  | _, _ => none

/-- The integer that truncation of a double gives. -/
def toInt (x : Float) : Outcome :=
  if x.isNaN then .done (.int 0)
  else
    match (FloatMath.toInt? x).bind inIntegerRange? with
    | some n => .done (.int n)
    | none => .failed (.arithmetic ("Integer overflow: to_int(" ++ NumberText.plain x ++ ")"))

/-- The greater or the lesser of two numbers; the second one, unless the first is at least or at most that. -/
def extreme (greatest : Bool) (x y : Float) : Float :=
  if greatest then (if y ≤ x then x else y) else if x ≤ y then x else y

/-- The greater or the lesser of two values, if they are texts or numbers of which one is an integer. -/
def extremum? (greatest : Bool) : Value → Value → Option Outcome
  | .int a, .int b => some (.done (.int (if greatest then max a b else min a b)))
  | .int a, .float y => some (.done (.float (extreme greatest (FloatMath.ofInt a) y)))
  | .float x, .int b => some (.done (.float (extreme greatest x (FloatMath.ofInt b))))
  | .string a, .string b => some (.done (.string (if decide (a < b) = greatest then b else a)))
  | .char a, .char b => some (.done (.char (if decide (a < b) = greatest then b else a)))
  | _, _ => none

/-- The functions that exist for particular types of arguments; nothing if there is none. -/
def particular? : String → List Value → Option Outcome
  | "abs", [.int a] => some (checked a.natAbs ("Negation overflow: -" ++ toString a))
  | "sign", [.int a] => some (.done (.int a.sign))
  | "min", [a, b] => extremum? false a b
  | "max", [a, b] => extremum? true a b
  | "log", [.float x, .float base] => some (.done (.float (x.log / base.log)))
  | "len", [.string s] => some (.done (.int s.length))
  | "len", [.array items] => some (.done (.int items.length))
  | "len", [.map keys values] => some (.done (.int (NameMap.zip keys values).size))
  | "push", [.array items, v] => some (.changed .unit (.array (items ++ [v])))
  | "pop", [.array items] => some (.changed (items.getLast?.getD .unit) (.array items.dropLast))
  | "values", [.map _ values] => some (.done (.array values))
  | "keys", [.map keys _] => some (.done (.array (keys.val.map Value.string)))
  | "to_int", [.float x] => some (toInt x)
  | "to_int", [.int a] => some (.done (.int a))
  | "to_float", [.int a] => some (.done (.float (FloatMath.ofInt a)))
  | _, _ => none

/-- The call of an operator or built-in function; nothing if none takes such arguments. -/
def call? (name : String) (arguments : List Value) : Option Outcome :=
  match particular? name arguments with
  | some outcome => some outcome
  | none =>
    match HostMath.call? name arguments with
    | some outcome => some outcome
    | none =>
      match arguments with
      | [a] => sign? name a
      | [a, b] => binary? name a b
      | _ => none

/-- What an assignment with an operator puts in the place of the old value. It divides integers
without a remainder, and adding to an array appends. -/
def assign? (operator : String) (old value : Value) : Option Outcome :=
  match operator, old, value with
  | "/", .int a, .int b =>
    if b = 0 then some (.failed (.arithmetic ("Division by zero: " ++ written a "/" b)))
    else some (checked (a.tdiv b) ("Division overflow: " ++ written a "/" b))
  | "+", .array a, .array b => some (.done (.array (a ++ b)))
  | "+", .array a, v => some (.done (.array (a ++ [v])))
  | _, _, _ => binary? operator old value

end Builtin

end Script

end DerivedSignal
