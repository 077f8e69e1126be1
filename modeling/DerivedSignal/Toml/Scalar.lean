import DerivedSignal.Number.Power
import DerivedSignal.Toml.Value

namespace DerivedSignal

namespace Toml

/-- The white space inside a line. -/
def isBlank (c : Char) : Bool := c = ' ' || c = '\t'

/-- The text without the blanks in front. -/
def skipBlanks (s : List Char) : List Char := s.dropWhile isBlank

/-- Whether a character may stand in a comment or between quote marks: no control but the tab. -/
def isPlain (c : Char) : Bool := c = '\t' || (c.toNat ≥ 0x20 && c.toNat ≠ 0x7f)

/-- What follows a line end, if there is one. -/
def newline? : List Char → Option (List Char)
  | '\n' :: rest => some rest
  | '\x0d' :: '\n' :: rest => some rest
  | _ => none

/-- The text behind a comment, if there is one. -/
def skipComment : List Char → List Char
  | '#' :: rest => rest.dropWhile isPlain
  | s => s

/-- What follows the end of a line or the text, behind blanks and a comment. -/
def lineEnd? (s : List Char) : Option (List Char) :=
  match skipComment (skipBlanks s) with
  | [] => some []
  | s => newline? s

/-- The value of a hexadecimal digit. -/
def hexDigit? (c : Char) : Option Nat :=
  let n := c.toNat
  if 48 ≤ n && n ≤ 57 then some (n - 48)
  else if 97 ≤ n && n ≤ 102 then some (n - 87)
  else if 65 ≤ n && n ≤ 70 then some (n - 55)
  else none

/-- The character whose number some hexadecimal digits write. -/
def codePoint? (digits : List Char) : Option Char := do
  let values ← digits.mapM hexDigit?
  let n := values.foldl (fun n d => n * 16 + d) 0
  if n < 0xd800 ∨ (0xdfff < n ∧ n < 0x110000) then some (Char.ofNat n) else none

/-- The character of an escape with a single letter. -/
def shortEscape? : Char → Option Char
  | 'b' => some '\x08'
  | 't' => some '\t'
  | 'n' => some '\n'
  | 'f' => some '\x0c'
  | 'r' => some '\x0d'
  | '\x22' => some '\x22'
  | '\\' => some '\\'
  | _ => none

/-- Puts a character before a text that was read. -/
def prepend (c : Char) (read : Option (List Char × List Char)) : Option (List Char × List Char) :=
  read.map fun r => (c :: r.1, r.2)

/-- A text up to the closing double quote of a single line. -/
def basicText : List Char → Option (List Char × List Char)
  | '\x22' :: rest => some ([], rest)
  | '\\' :: 'u' :: a :: b :: c :: d :: rest =>
    (codePoint? [a, b, c, d]).bind fun x => prepend x (basicText rest)
  | '\\' :: 'U' :: a :: b :: c :: d :: e :: f :: g :: h :: rest =>
    (codePoint? [a, b, c, d, e, f, g, h]).bind fun x => prepend x (basicText rest)
  | '\\' :: c :: rest => (shortEscape? c).bind fun x => prepend x (basicText rest)
  | c :: rest => if isPlain c then prepend c (basicText rest) else none
  | [] => none

/-- A text up to the closing apostrophe of a single line. -/
def literalText : List Char → Option (List Char × List Char)
  | '\x27' :: rest => some ([], rest)
  | c :: rest => if isPlain c then prepend c (literalText rest) else none
  | [] => none

/-- Up to two quote marks behind three closing ones belong to the text. -/
def closing (mark : Char) : List Char → List Char × List Char
  | a :: b :: rest =>
    if a = mark then
      if b = mark then ([mark, mark], rest) else ([mark], b :: rest)
    else ([], a :: b :: rest)
  | [a] => if a = mark then ([mark], []) else ([], [a])
  | [] => ([], [])

/-- A text of several lines up to three double quotes. While `skipping`, white space is left out:
a backslash at the end of a line begins that. -/
def basicLines (skipping : Bool) : List Char → Option (List Char × List Char)
  | '\x22' :: '\x22' :: '\x22' :: rest => some (closing '\x22' rest)
  | '\\' :: 'u' :: a :: b :: c :: d :: rest =>
    (codePoint? [a, b, c, d]).bind fun x => prepend x (basicLines false rest)
  | '\\' :: 'U' :: a :: b :: c :: d :: e :: f :: g :: h :: rest =>
    (codePoint? [a, b, c, d, e, f, g, h]).bind fun x => prepend x (basicLines false rest)
  | '\\' :: c :: rest =>
    if (newline? (skipBlanks (c :: rest))).isSome then basicLines true (c :: rest)
    else (shortEscape? c).bind fun x => prepend x (basicLines false rest)
  | '\x0d' :: '\n' :: rest =>
    if skipping then basicLines true rest else prepend '\n' (basicLines false rest)
  | c :: rest =>
    if skipping && (isBlank c || c = '\n') then basicLines true rest
    else if isPlain c || c = '\n' then prepend c (basicLines false rest)
    else none
  | [] => none

/-- A text of several lines up to three apostrophes. -/
def literalLines : List Char → Option (List Char × List Char)
  | '\x27' :: '\x27' :: '\x27' :: rest => some (closing '\x27' rest)
  | '\x0d' :: '\n' :: rest => prepend '\n' (literalLines rest)
  | c :: rest => if isPlain c || c = '\n' then prepend c (literalLines rest) else none
  | [] => none

/-- The text without a line end in front. -/
def skipNewline (s : List Char) : List Char := (newline? s).getD s

/-- A text in any of its four forms. -/
def readText? (s : List Char) : Option (String × List Char) :=
  let read := match s with
    | '\x22' :: '\x22' :: '\x22' :: rest => basicLines false (skipNewline rest)
    | '\x22' :: rest => basicText rest
    | '\x27' :: '\x27' :: '\x27' :: rest => literalLines (skipNewline rest)
    | '\x27' :: rest => literalText rest
    | _ => none
  read.map fun r => (String.ofList r.1, r.2)

/-- The characters of a key without quote marks. -/
def isKeyChar (c : Char) : Bool := c.isAlphanum || c = '_' || c = '-'

/-- A key without dots. -/
def readKey? (s : List Char) : Option (String × List Char) :=
  let read := match s with
    | '\x22' :: rest => basicText rest
    | '\x27' :: rest => literalText rest
    | _ =>
      if (s.takeWhile isKeyChar).isEmpty then none
      else some (s.takeWhile isKeyChar, s.dropWhile isKeyChar)
  read.map fun r => (String.ofList r.1, r.2)

/-- Keys with dots between them and blanks around them, at most `limit` of them. -/
def readKeys? : Nat → List Char → Option (List String × List Char)
  | 0, _ => none
  | limit + 1, s =>
    match readKey? (skipBlanks s) with
    | none => none
    | some (key, rest) =>
      match skipBlanks rest with
      | '.' :: rest => (readKeys? limit rest).map fun r => (key :: r.1, r.2)
      | rest => some ([key], rest)

/-- The number of parts that a dotted key may have. -/
def keyLimit : Nat := 79

/-- More digits; an underscore may stand before each. -/
def moreDigits (isDigit : Char → Bool) : List Char → List Char × List Char
  | '_' :: c :: rest =>
    if isDigit c then
      let (digits, rest) := moreDigits isDigit rest
      (c :: digits, rest)
    else ([], '_' :: c :: rest)
  | c :: rest =>
    if isDigit c then
      let (digits, rest) := moreDigits isDigit rest
      (c :: digits, rest)
    else ([], c :: rest)
  | [] => ([], [])

/-- Digits; an underscore may stand before each but the first. -/
def digits? (isDigit : Char → Bool) : List Char → Option (List Char × List Char)
  | c :: rest =>
    if isDigit c then
      let (digits, rest) := moreDigits isDigit rest
      some (c :: digits, rest)
    else none
  | [] => none

/-- The number that digits write in a base. -/
def number (base : Nat) (digits : List Char) : Nat :=
  digits.foldl (fun n c => n * base + (hexDigit? c).getD 0) 0

/-- An integer of 64 bits. -/
def integer? (n : Int) : Option Value := (inIntegerRange? n).map .integer

/-- Whether a character is a digit of a base up to ten. -/
def isDigitBelow (base : Nat) (c : Char) : Bool := c.isDigit && c.toNat < 48 + base

/-- An integer in a base other than ten, behind its mark. -/
def based? (base : Nat) (isDigit : Char → Bool) (s : List Char) : Option (Value × List Char) :=
  (digits? isDigit s).bind fun r => (integer? (number base r.1)).map fun v => (v, r.2)

/-- The digits of a decimal integer, without zeros in front. -/
def whole? : List Char → Option (List Char × List Char)
  | '0' :: rest => some (['0'], rest)
  | s => digits? Char.isDigit s

/-- The digits of an exponent with its sign, if there is one; nothing if it has no digits. -/
def exponent? (s : List Char) : Option (Option Int × List Char) :=
  let value : Bool → List Char → Option (Option Int × List Char) := fun negative s =>
    (digits? Char.isDigit s).map fun r =>
      (some (if negative then -(number 10 r.1 : Int) else number 10 r.1), r.2)
  let signed : List Char → Option (Option Int × List Char) := fun s =>
    match s with
    | '-' :: rest => value true rest
    | '+' :: rest => value false rest
    | _ => value false s
  match s with
  | 'e' :: rest => signed rest
  | 'E' :: rest => signed rest
  | _ => some (none, s)

/-- Whether digits with a power of ten are beyond the largest double. -/
def isTooLarge (digits : List Char) (exponent : Int) : Bool :=
  let digits := digits.dropWhile (· = '0')
  let size : Int := digits.length + exponent
  if digits.isEmpty || size < 300 then false
  else if size > 310 then true
  else (Float.ofScientific (number 10 digits) (exponent < 0) exponent.natAbs).isInf

/-- A decimal number without its sign. Floats beyond the largest double are refused if they are
positive. -/
def decimal? (negative : Bool) (s : List Char) : Option (Value × List Char) := do
  let (whole, rest) ← whole? s
  let (fraction, rest) ← match rest with
    | '.' :: rest => (digits? Char.isDigit rest).map fun r => (some r.1, r.2)
    | _ => some (none, rest)
  let (exponent, rest) ← exponent? rest
  if fraction.isNone && exponent.isNone then
    let n : Int := number 10 whole
    (integer? (if negative then -n else n)).map fun v => (v, rest)
  else
    let fraction := fraction.getD []
    if !negative && isTooLarge (whole ++ fraction) (exponent.getD 0 - fraction.length) then none
    else some (.float (String.ofList (s.take (s.length - rest.length))), rest)

/-- A number with its sign. -/
def signed? (negative : Bool) (s : List Char) : Option (Value × List Char) :=
  match s with
  | 'i' :: 'n' :: 'f' :: rest => some (.float "inf", rest)
  | 'n' :: 'a' :: 'n' :: rest => some (.float "nan", rest)
  | s => decimal? negative s

/-- A number in any form. -/
def readNumber? (s : List Char) : Option (Value × List Char) :=
  match s with
  | '0' :: 'x' :: rest => based? 16 (fun c => (hexDigit? c).isSome) rest
  | '0' :: 'o' :: rest => based? 8 (isDigitBelow 8) rest
  | '0' :: 'b' :: rest => based? 2 (isDigitBelow 2) rest
  | '+' :: rest => signed? false rest
  | '-' :: rest => signed? true rest
  | s => signed? false s

/-- A number of some digits within bounds. -/
def within? (digits : List Char) (low high : Nat) : Option Nat :=
  let n := number 10 digits
  if digits.all Char.isDigit && low ≤ n && n ≤ high then some n else none

/-- The number of days of a month. -/
def daysIn (year month : Nat) : Nat :=
  if month = 2 then
    if year % 4 = 0 ∧ (year % 100 ≠ 0 ∨ year % 400 = 0) then 29 else 28
  else if month = 4 ∨ month = 6 ∨ month = 9 ∨ month = 11 then 30
  else 31

/-- What follows a date. -/
def date? : List Char → Option (List Char)
  | a :: b :: c :: d :: '-' :: e :: f :: '-' :: g :: h :: rest => do
    let year ← within? [a, b, c, d] 0 9999
    let month ← within? [e, f] 1 12
    let _ ← within? [g, h] 1 (daysIn year month)
    return rest
  | _ => none

/-- What follows a time, with a fraction of the second if there is one. -/
def time? : List Char → Option (List Char)
  | a :: b :: ':' :: c :: d :: ':' :: e :: f :: rest => do
    let _ ← within? [a, b] 0 23
    let _ ← within? [c, d] 0 59
    let _ ← within? [e, f] 0 60
    match rest with
    | '.' :: g :: rest => if g.isDigit then some (rest.dropWhile Char.isDigit) else none
    | ['.'] => none
    | rest => some rest
  | _ => none

/-- What follows the distance from universal time, if there is one. -/
def offset? (s : List Char) : Option (List Char) :=
  let distance : List Char → Option (List Char) := fun s =>
    match s with
    | a :: b :: ':' :: c :: d :: rest =>
      (within? [a, b] 0 23).bind fun _ => (within? [c, d] 0 59).map fun _ => rest
    | _ => none
  match s with
  | 'Z' :: rest => some rest
  | 'z' :: rest => some rest
  | '+' :: rest => distance rest
  | '-' :: rest => distance rest
  | s => some s

/-- What follows a date, a time, or both with `T` or a blank between them. -/
def moment? (s : List Char) : Option (List Char) :=
  match date? s with
  | none => time? s
  | some rest =>
    match rest with
    | 'T' :: time => (time? time).bind offset?
    | 't' :: time => (time? time).bind offset?
    | ' ' :: time =>
      match time? time with
      | some after => offset? after
      | none => some rest
    | _ => some rest

/-- A date, a time or a number. -/
def readMeasure? (s : List Char) : Option (Value × List Char) :=
  match moment? s with
  | some rest => some (.moment (String.ofList (s.take (s.length - rest.length))), rest)
  | none => readNumber? s

end Toml

end DerivedSignal
