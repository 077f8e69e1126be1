import DerivedSignal.Json.Value

namespace DerivedSignal

namespace Json

/-- The escape of a control character without a short one. -/
def controlEscape (c : Char) : List Char :=
  let digits := Nat.toDigits 16 c.toNat
  '\\' :: 'u' :: (List.replicate (4 - digits.length) '0' ++ digits)

/-- One character of a text. -/
def escape (c : Char) : List Char :=
  if c = '\x22' then ['\\', '\x22']
  else if c = '\\' then ['\\', '\\']
  else if c.toNat = 8 then ['\\', 'b']
  else if c.toNat = 12 then ['\\', 'f']
  else if c = '\n' then ['\\', 'n']
  else if c = '\r' then ['\\', 'r']
  else if c = '\t' then ['\\', 't']
  else if c.toNat < 32 then controlEscape c
  else [c]

/-- A text between quotes. -/
def printText (s : String) : String :=
  String.ofList ('\x22' :: s.toList.flatMap escape ++ ['\x22'])

/-- A number literal; the exponent has a sign. -/
def Numeral.print (n : Numeral) : String :=
  let exponent := match n.exponent with
    | none => []
    | some e => 'e' :: (if e < 0 then '-' else '+') :: Nat.toDigits 10 e.natAbs
  String.ofList ((if n.negative then ['-'] else []) ++ Decimal.pointed (n.whole, n.fraction)
    ++ exponent)

/-- The text of a key or value, empty where there is none. -/
def printOptional (s : Option String) : String := printText (s.getD "")

mutual

/-- A value in one line, without blanks. -/
def Value.compact : Value → String
  | .null => "null"
  | .bool b => if b then "true" else "false"
  | .number n => n.print
  | .string s => printOptional s
  | .array items => "[" ++ ",".intercalate (compactItems items) ++ "]"
  | .object members => "\x7b" ++ ",".intercalate (compactMembers members) ++ "\x7d"

/-- The items of an array. -/
def compactItems : List Value → List String
  | [] => []
  | v :: vs => v.compact :: compactItems vs

/-- The members of an object. -/
def compactMembers : List (Option String × Value) → List String
  | [] => []
  | (key, v) :: ms => (printOptional key ++ ":" ++ v.compact) :: compactMembers ms

end

/-- A line break and two blanks for each level. -/
def lineBreak (level : Nat) : String := String.ofList ('\n' :: List.replicate (2 * level) ' ')

/-- Parts on lines of their own between two brackets; nothing between them if there are none. -/
def block (level : Nat) (opening closing : String) (parts : List String) : String :=
  if parts.isEmpty then opening ++ closing
  else opening ++ lineBreak (level + 1) ++ ("," ++ lineBreak (level + 1)).intercalate parts
    ++ lineBreak level ++ closing

mutual

/-- A value with one item or member a line, at a level of nesting. -/
def Value.pretty (level : Nat) : Value → String
  | .null => "null"
  | .bool b => if b then "true" else "false"
  | .number n => n.print
  | .string s => printOptional s
  | .array items => block level "[" "]" (prettyItems (level + 1) items)
  | .object members => block level "\x7b" "\x7d" (prettyMembers (level + 1) members)

/-- The items of an array. -/
def prettyItems (level : Nat) : List Value → List String
  | [] => []
  | v :: vs => v.pretty level :: prettyItems level vs

/-- The members of an object. -/
def prettyMembers (level : Nat) : List (Option String × Value) → List String
  | [] => []
  | (key, v) :: ms => (printOptional key ++ ": " ++ v.pretty level) :: prettyMembers level ms

end

end Json

end DerivedSignal
