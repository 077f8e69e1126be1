import DerivedSignal.Json.Value

namespace DerivedSignal

namespace Json

/-- The blanks that may stand between tokens. -/
def isBlank (c : Char) : Bool := c == ' ' || c == '\n' || c == '\t' || c == '\r'

/-- The text from the next token on. -/
def skipBlanks (s : List Char) : List Char := s.dropWhile isBlank

/-- The value of a hexadecimal digit. -/
def hexDigit? (c : Char) : Option Nat :=
  if '0' ≤ c ∧ c ≤ '9' then some (c.toNat - '0'.toNat)
  else if 'a' ≤ c ∧ c ≤ 'f' then some (c.toNat - 'a'.toNat + 10)
  else if 'A' ≤ c ∧ c ≤ 'F' then some (c.toNat - 'A'.toNat + 10)
  else none

/-- The code of four hexadecimal digits. -/
def hexCode? (a b c d : Char) : Option Nat := do
  return (((← hexDigit? a) * 16 + (← hexDigit? b)) * 16 + (← hexDigit? c)) * 16 + (← hexDigit? d)

/-- The character codes of a text up to its closing quote, and what follows; halves of surrogate
pairs stand for themselves. -/
def textCodes : List Char → Option (List Nat × List Char)
  | '\x22' :: rest => some ([], rest)
  | '\\' :: 'u' :: a :: b :: c :: d :: rest => do
    let code ← hexCode? a b c d
    let (codes, rest) ← textCodes rest
    return (code :: codes, rest)
  | '\\' :: c :: rest => do
    let code ← match c with
      | '\x22' => some 0x22
      | '\\' => some 0x5c
      | '/' => some 0x2f
      | 'b' => some 8
      | 'f' => some 12
      | 'n' => some 10
      | 'r' => some 13
      | 't' => some 9
      | _ => none
    let (codes, rest) ← textCodes rest
    return (code :: codes, rest)
  | c :: rest =>
    if c.toNat < 32 then none
    else do
      let (codes, rest) ← textCodes rest
      return (c.toNat :: codes, rest)
  | [] => none

/-- Joins surrogate pairs; nothing if half of one stands alone. -/
def joinPairs : List Nat → Option (List Char)
  | [] => some []
  | high :: low :: rest =>
    if 0xd800 ≤ high ∧ high < 0xdc00 then
      if 0xdc00 ≤ low ∧ low < 0xe000 then
        (joinPairs rest).map (Char.ofNat (0x10000 + (high - 0xd800) * 0x400 + (low - 0xdc00)) :: ·)
      else none
    else if 0xdc00 ≤ high ∧ high < 0xe000 then none
    else (joinPairs (low :: rest)).map (Char.ofNat high :: ·)
  | [code] => if 0xd800 ≤ code ∧ code < 0xe000 then none else some [Char.ofNat code]

/-- A text behind its opening quote. -/
def readText (s : List Char) : Option (Option String × List Char) :=
  (textCodes s).map fun (codes, rest) => ((joinPairs codes).map String.ofList, rest)

/-- The digits at the front, and what follows. -/
def digitRun (s : List Char) : List Char × List Char := s.span Char.isDigit

/-- An exponent behind its mark. -/
def readExponent (s : List Char) : Option (Int × List Char) :=
  let (negative, s) := match s with
    | '-' :: rest => (true, rest)
    | '+' :: rest => (false, rest)
    | _ => (false, s)
  match digitRun s with
  | ([], _) => none
  | (digits, rest) =>
    let size : Nat := digits.foldl (fun n c => n * 10 + Numeral.digit c) 0
    some (if negative then -(size : Int) else size, rest)

/-- A number literal. A zero in front stands alone, and digits follow a point. -/
def readNumeral (s : List Char) : Option (Numeral × List Char) :=
  let (negative, s) := match s with
    | '-' :: rest => (true, rest)
    | _ => (false, s)
  match digitRun s with
  | ([], _) => none
  | ('0' :: _ :: _, _) => none
  | (whole, rest) => do
    let (fraction, rest) ← match rest with
      | '.' :: rest =>
        match digitRun rest with
        | ([], _) => none
        | (fraction, rest) => some (fraction, rest)
      | _ => some ([], rest)
    let (exponent, rest) ← match rest with
      | 'e' :: rest | 'E' :: rest => (readExponent rest).map fun (e, rest) => (some e, rest)
      | _ => some (none, rest)
    return (⟨negative, whole, fraction, exponent⟩, rest)

mutual

/-- A value and what follows it. -/
def readValue : Nat → List Char → Option (Value × List Char)
  | 0, _ => none
  | fuel + 1, s =>
    match skipBlanks s with
    | 'n' :: 'u' :: 'l' :: 'l' :: rest => some (.null, rest)
    | 't' :: 'r' :: 'u' :: 'e' :: rest => some (.bool true, rest)
    | 'f' :: 'a' :: 'l' :: 's' :: 'e' :: rest => some (.bool false, rest)
    | '\x22' :: rest => (readText rest).map fun (text, rest) => (.string text, rest)
    | '[' :: rest =>
      match skipBlanks rest with
      | ']' :: rest => some (.array [], rest)
      | _ => (readItems fuel rest).map fun (items, rest) => (.array items, rest)
    | '{' :: rest =>
      match skipBlanks rest with
      | '}' :: rest => some (.object [], rest)
      | _ => (readMembers fuel rest).map fun (members, rest) => (.object members, rest)
    | s => (readNumeral s).map fun (n, rest) => (.number n, rest)

/-- The items of an array up to its closing bracket; there is at least one. -/
def readItems : Nat → List Char → Option (List Value × List Char)
  | 0, _ => none
  | fuel + 1, s => do
    let (item, rest) ← readValue fuel s
    match skipBlanks rest with
    | ',' :: rest =>
      let (items, rest) ← readItems fuel rest
      return (item :: items, rest)
    | ']' :: rest => return ([item], rest)
    | _ => none

/-- The members of an object up to its closing brace; there is at least one. -/
def readMembers : Nat → List Char → Option (List (Option String × Value) × List Char)
  | 0, _ => none
  | fuel + 1, s =>
    match skipBlanks s with
    | '\x22' :: rest => do
      let (key, rest) ← readText rest
      match skipBlanks rest with
      | ':' :: rest =>
        let (value, rest) ← readValue fuel rest
        match skipBlanks rest with
        | ',' :: rest =>
          let (members, rest) ← readMembers fuel rest
          return ((key, value) :: members, rest)
        | '}' :: rest => return ([(key, value)], rest)
        | _ => none
      | _ => none
    | _ => none

end

/-- The value of a whole text. A value takes at least one character, so the length of the text
bounds the nesting and the number of items. -/
def parse? (text : String) : Option Value := do
  let s := text.toList
  let (value, rest) ← readValue (2 * s.length + 2) s
  if (skipBlanks rest).isEmpty then some value else none

end Json

end DerivedSignal
