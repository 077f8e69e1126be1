namespace DerivedSignal

namespace Toml

/-- What in a text decides on the quote marks around it. -/
structure Traits where
  /-- Control characters other than tabs and line feeds. -/
  controls : Bool
  backslashes : Bool
  lineFeeds : Bool
  /-- The longest run of double quotes. -/
  quotes : Nat
  /-- The longest run of apostrophes. -/
  apostrophes : Nat

/-- The longest run of a character, where `current` of them stand before the text. -/
def longestRun (mark : Char) (current : Nat) : List Char → Nat
  | [] => current
  | c :: cs =>
    if c = mark then longestRun mark (current + 1) cs else max current (longestRun mark 0 cs)

/-- Whether a character can only be written by an escape. -/
def isControl (c : Char) : Bool :=
  (c.toNat < 0x20 && c ≠ '\t' && c ≠ '\n') || c.toNat = 0x7f

/-- The traits of a text. -/
def Traits.of (s : List Char) : Traits :=
  ⟨s.any isControl, s.contains '\\', s.contains '\n', longestRun '\x22' 0 s, longestRun '\x27' 0 s⟩

/-- The forms of a text: between one or three quote marks, which are apostrophes if nothing is
escaped inside. -/
inductive Form where
  | basic
  | literal
  | basicLines
  | literalLines
  deriving DecidableEq, Repr

/-- The first form in which a text can be written without an escape; if there is none, double
quotes. -/
def Traits.form (t : Traits) : Form :=
  if !t.controls && !t.backslashes && t.quotes = 0 && !t.lineFeeds then .basic
  else if !t.controls && t.apostrophes = 0 && !t.lineFeeds then .literal
  else if !t.controls && !t.backslashes && t.quotes ≤ 2 then .basicLines
  else if !t.controls && t.apostrophes ≤ 2 then .literalLines
  else if t.lineFeeds then .basicLines
  else .basic

/-- A character in double quotes; line feeds and quote marks are for the caller to decide. -/
def escapeChar (c : Char) : List Char :=
  if c = '\t' then ['\\', 't']
  else if c = '\\' then ['\\', '\\']
  else if c.toNat = 8 then ['\\', 'b']
  else if c.toNat = 12 then ['\\', 'f']
  else if c = '\x0d' then ['\\', 'r']
  else if isControl c then
    let digits := (Nat.toDigits 16 c.toNat).map Char.toUpper
    '\\' :: 'u' :: (List.replicate (4 - digits.length) '0' ++ digits)
  else [c]

/-- The inside of double quotes of a single line. -/
def escapeText (s : List Char) : List Char :=
  s.flatMap fun c =>
    if c = '\x22' then ['\\', '\x22'] else if c = '\n' then ['\\', 'n'] else escapeChar c

/-- The inside of three double quotes: of every three quote marks in a row the third is escaped.
`run` of them stand before the text. -/
def escapeLines (run : Nat) : List Char → List Char
  | [] => []
  | c :: cs =>
    if c = '\x22' then
      if run ≥ 2 then '\\' :: '\x22' :: escapeLines 0 cs else '\x22' :: escapeLines (run + 1) cs
    else escapeChar c ++ escapeLines 0 cs

/-- Three quote marks around a text, with a line feed behind the first ones if there is one in the
text. -/
def tripled (mark : Char) (lineFeeds : Bool) (inside : List Char) : List Char :=
  [mark, mark, mark] ++ (if lineFeeds then ['\n'] else []) ++ inside ++ [mark, mark, mark]

/-- A text between quote marks. -/
def quoted (text : String) : String :=
  let s := text.toList
  let t := Traits.of s
  String.ofList (match t.form with
    | .basic => '\x22' :: escapeText s ++ ['\x22']
    | .literal => '\x27' :: s ++ ['\x27']
    | .basicLines => tripled '\x22' t.lineFeeds (escapeLines 0 s)
    | .literalLines => tripled '\x27' t.lineFeeds s)

/-- A line that gives a value to a key. -/
def assignment (key value : String) : String := key ++ " = " ++ value ++ "\n"

/-- A table of some lines under its header. -/
def headed (name : String) (lines : List String) : String :=
  "[" ++ name ++ "]\n" ++ String.join lines

end Toml

end DerivedSignal
