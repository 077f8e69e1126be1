import DerivedSignal.Number.Power
import DerivedSignal.Script.Token
import DerivedSignal.Text.Blank

namespace DerivedSignal

namespace Script

namespace Lexer

/-- The rest of a text and its place. -/
structure Cursor where
  rest : List Char
  place : Position

namespace Cursor

/-- The cursor behind some more characters. -/
def skip (c : Cursor) (n : Nat) : Cursor :=
  ⟨c.rest.drop n, c.place.afterAll (c.rest.take n)⟩

end Cursor

/-- Behind a block comment, whose opening mark has been read `depth` times more often than its
closing one; an unclosed comment reaches to the end. -/
def skipBlock (place : Position) : Nat → List Char → Cursor
  | 0, rest => ⟨rest, place⟩
  | _ + 1, [] => ⟨[], place⟩
  | depth + 1, '/' :: '*' :: rest => skipBlock (place.afterAll ['/', '*']) (depth + 2) rest
  | depth + 1, '*' :: '/' :: rest => skipBlock (place.afterAll ['*', '/']) depth rest
  | depth + 1, c :: rest => skipBlock (place.after c) (depth + 1) rest

/-- A letter of the basic alphabet. -/
def isLetter (c : Char) : Bool := ('a' ≤ c && c ≤ 'z') || ('A' ≤ c && c ≤ 'Z')

/-- A character within a name. -/
def isNameChar (c : Char) : Bool := isLetter c || c.isDigit || c == '_'

/-- A name has a letter first, or behind underscores. -/
def isName (cs : List Char) : Bool :=
  match cs.dropWhile (· == '_') with
  | c :: _ => isLetter c
  | [] => false

/-- The value of a digit in a base up to sixteen. -/
def digit? (base : Nat) (c : Char) : Option Nat :=
  let value :=
    if '0' ≤ c ∧ c ≤ '9' then c.toNat - '0'.toNat
    else if 'a' ≤ c ∧ c ≤ 'f' then c.toNat - 'a'.toNat + 10
    else if 'A' ≤ c ∧ c ≤ 'F' then c.toNat - 'A'.toNat + 10
    else 16
  if value < base then some value else none

/-- The number that digits stand for. -/
def ofDigits? (base : Nat) : List Char → Option Nat
  | [] => none
  | cs => cs.foldlM (fun n c => (digit? base c).map fun d => n * base + d) 0

/-- The signed 64-bit integer with the given bits. -/
def ofBits (n : Nat) : Int := if n < twoTo 63 then n else (n : Int) - twoTo 64

/-- The characters of a decimal literal: digits, underscores, a point before a digit or before
something that starts no name, an exponent before a digit or sign. Returns the literal without
underscores, with a zero behind a point that no digit follows, and the number of characters. -/
def decimalRun : List Char → List Char × Nat
  | '_' :: rest => ((decimalRun rest).1, (decimalRun rest).2 + 1)
  | '.' :: c :: rest =>
    if c.isDigit then ('.' :: (decimalRun (c :: rest)).1, (decimalRun (c :: rest)).2 + 1)
    else if c == '_' || c == '.' || isLetter c then ([], 0)
    else ('.' :: '0' :: (decimalRun (c :: rest)).1, (decimalRun (c :: rest)).2 + 1)
  | 'e' :: c :: rest =>
    if c.isDigit then ('e' :: (decimalRun (c :: rest)).1, (decimalRun (c :: rest)).2 + 1)
    else if c == '+' || c == '-' then
      ('e' :: c :: (decimalRun rest).1, (decimalRun rest).2 + 2)
    else ([], 0)
  | c :: rest =>
    if c.isDigit then (c :: (decimalRun rest).1, (decimalRun rest).2 + 1) else ([], 0)
  | [] => ([], 0)

/-- The double nearest to a decimal literal, if it is one. -/
def decimalFloat? (cs : List Char) : Option Float := do
  let whole := cs.takeWhile Char.isDigit
  let rest := cs.dropWhile Char.isDigit
  let (fraction, rest) := match rest with
    | '.' :: rest => (rest.takeWhile Char.isDigit, rest.dropWhile Char.isDigit)
    | _ => ([], rest)
  let digits ← ofDigits? 10 (whole ++ fraction)
  let exponent : Int ← match rest with
    | [] => some 0
    | 'e' :: '-' :: rest => (ofDigits? 10 rest).map fun n => -(n : Int)
    | 'e' :: '+' :: rest => (ofDigits? 10 rest).map Int.ofNat
    | 'e' :: rest => (ofDigits? 10 rest).map Int.ofNat
    | _ => none
  let scale := exponent - fraction.length
  if digits = 0 then return 0
  else return Float.ofScientific digits (scale < 0) scale.natAbs

/-- The token of a decimal literal: an integer if it is one and fits 64 bits, otherwise a double. -/
def decimalToken? (negative : Bool) (cs : List Char) : Option Token :=
  let integer := (ofDigits? 10 cs).bind fun n => inIntegerRange? (if negative then -(n : Int) else n)
  match integer with
  | some n => some (.int n)
  | none => (decimalFloat? cs).map fun x => .float (if negative then -x else x)

/-- The digits of a literal in another base, and the number of its characters. -/
def basedRun (base : Nat) : List Char → List Char × Nat
  | '_' :: rest => ((basedRun base rest).1, (basedRun base rest).2 + 1)
  | c :: rest =>
    if (digit? base c).isSome then (c :: (basedRun base rest).1, (basedRun base rest).2 + 1)
    else ([], 0)
  | [] => ([], 0)

/-- The base that a mark behind a leading zero announces. -/
def baseOf? (c : Char) : Option Nat :=
  if c == 'x' || c == 'X' then some 16
  else if c == 'o' || c == 'O' then some 8
  else if c == 'b' || c == 'B' then some 2
  else none

/-- The token of a literal in another base: 64 bits, read as a signed integer. -/
def basedToken? (negative : Bool) (base : Nat) (cs : List Char) : Option Token := do
  let n ← ofDigits? base cs
  if negative ∨ twoTo 64 ≤ n then none else some (.int (ofBits n))

/-- A number literal, and the number of its characters. -/
def number? (negative : Bool) (cs : List Char) : Option (Token × Nat) :=
  let decimal := (decimalToken? negative (decimalRun cs).1).map fun t => (t, (decimalRun cs).2)
  match cs with
  | '0' :: mark :: rest =>
    match baseOf? mark with
    | some base =>
      (basedToken? negative base (basedRun base rest).1).map fun t => (t, (basedRun base rest).2 + 2)
    | none => decimal
  | _ => decimal

/-- The character with a code of a given number of hexadecimal digits, and what follows. -/
def codeEscape? (digits : Nat) (cs : List Char) : Option (Char × List Char) := do
  let code ← ofDigits? 16 (cs.take digits)
  if (cs.take digits).length = digits ∧ (code < 0xd800 ∨ (0xdfff < code ∧ code < 0x110000)) then
    some (Char.ofNat code, cs.drop digits)
  else none

/-- The number of digits behind the mark of a character code. -/
def codeLength? (c : Char) : Option Nat :=
  if c == 'x' then some 2 else if c == 'u' then some 4 else if c == 'U' then some 8 else none

/-- The blanks in front of a text that stand before a column. -/
def indentation (column : Nat) : Nat → List Char → Nat
  | at_, c :: rest =>
    if Text.isBlank c && c != '\n' && at_ < column then indentation column (at_ + 1) rest + 1 else 0
  | _, [] => 0

/-- The content of a text between two `mark`s, of which the first has been read, and the number of
characters up to the closing one. A doubled mark stands for one; a backslash starts an escape; a
line break is an error unless a backslash joins the lines. -/
def quotedRun (mark : Char) (column : Nat) : Nat → List Char → Option (List Char × Nat)
  | 0, _ => none
  | _ + 1, [] => none
  | fuel + 1, '\\' :: c :: rest =>
    if c = '\n' then
      let blanks := indentation column 1 rest
      (quotedRun mark column fuel (rest.drop blanks)).map fun (s, n) => (s, n + blanks + 2)
    else
      match codeLength? c with
      | some digits => do
        let (char, rest) ← codeEscape? digits rest
        let (s, n) ← quotedRun mark column fuel rest
        return (char :: s, n + digits + 2)
      | none => do
        let char ← if c = 't' then some '\t' else if c = 'n' then some '\n'
          else if c = 'r' then some '\r' else if c = '\\' then some '\\'
          else if c = mark then some mark else none
        let (s, n) ← quotedRun mark column fuel rest
        return (char :: s, n + 2)
  | fuel + 1, c :: rest =>
    if c = mark then
      match rest with
      | c' :: rest' =>
        if c' = mark then (quotedRun mark column fuel rest').map fun (s, n) => (mark :: s, n + 2)
        else some ([], 1)
      | [] => some ([], 1)
    else if c = '\n' then none
    else (quotedRun mark column fuel rest).map fun (s, n) => (c :: s, n + 1)

/-- A piece of a text between backquotes: its content, whether embedded code follows, and the
number of characters with the mark that ends the piece. There are no escapes. -/
def templateRun : List Char → Option (List Char × Bool × Nat)
  | '`' :: '`' :: rest => (templateRun rest).map fun (s, opens, n) => ('`' :: s, opens, n + 2)
  | '`' :: _ => some ([], false, 1)
  | '$' :: '{' :: _ => some ([], true, 2)
  | c :: rest => (templateRun rest).map fun (s, opens, n) => (c :: s, opens, n + 1)
  | [] => none

/-- The symbol at the front; nothing if a refused sequence stands there that is at least as long. -/
def symbol? (cs : List Char) : Option String :=
  let starts := fun (s : String) => s.toList.isPrefixOf cs
  match Token.symbols.find? starts, Token.refused.find? starts with
  | some s, some r => if r.length ≥ s.length then none else some s
  | some s, none => some s
  | none, _ => none

/-- What has been read before the next token: whether a sign may belong to a literal, and how many
braces are open in each piece of embedded code. -/
structure Mode where
  signs : Bool
  embedded : List Nat

/-- The mode behind a token. -/
def Mode.after (m : Mode) (t : Token) : Mode :=
  let embedded := match t, m.embedded with
    | .symbol "\x7b", depth :: outer => (depth + 1) :: outer
    | .symbol "#\x7b", depth :: outer => (depth + 1) :: outer
    | .symbol "\x7d", depth :: outer => (depth - 1) :: outer
    | .template _ true, outer => 0 :: outer
    | _, depths => depths
  ⟨t.signMayFollow, embedded⟩

/-- The token at the front of a text without blanks before it, and the number of characters; texts
longer than the limit are refused. -/
def token? (limits : Nat) (signs : Bool) (c : Cursor) : Option (Token × Nat) :=
  match c.rest with
  | [] => none
  | '\x22' :: rest => do
    let (s, n) ← quotedRun '\x22' c.place.column (rest.length + 1) rest
    let s := String.ofList s
    if limits ≠ 0 ∧ s.utf8ByteSize > limits then none else some (.string s, n + 1)
  | '\x27' :: rest => do
    match ← quotedRun '\x27' c.place.column (rest.length + 1) rest with
    | ([char], n) => some (.char char, n + 1)
    | _ => none
  | '`' :: rest => do
    let skipped := match rest with
      | '\n' :: _ => 1
      | '\r' :: '\n' :: _ => 2
      | _ => 0
    let (s, opens, n) ← templateRun (rest.drop skipped)
    let s := String.ofList s
    if limits ≠ 0 ∧ s.utf8ByteSize > limits then none
    else some (.template s opens, n + skipped + 1)
  | '-' :: d :: rest =>
    if signs && d.isDigit then
      (number? true (d :: rest)).map fun (t, n) => (t, n + 1)
    else (symbol? c.rest).map fun s => (.symbol s, s.length)
  | d :: rest =>
    if d.isDigit then number? false (d :: rest)
    else if isLetter d || d == '_' then
      let cs := c.rest.takeWhile isNameChar
      let s := String.ofList cs
      if !isName cs || Token.reserved.contains s then none
      else if Token.keywords.contains s then some (.keyword s, cs.length)
      else some (.name s, cs.length)
    else (symbol? c.rest).map fun s => (.symbol s, s.length)

/-- The tokens of a text with their places; nothing if one is malformed. -/
def run (limits : Nat) : Nat → Mode → Cursor → Option (List (Token × Position))
  | 0, _, _ => none
  | fuel + 1, mode, c =>
    match c.rest with
    | [] => if mode.embedded.isEmpty then some [] else none
    | '/' :: '/' :: rest =>
      run limits fuel mode (c.skip ((rest.takeWhile (· ≠ '\n')).length + 2))
    | '/' :: '*' :: rest =>
      run limits fuel mode (skipBlock (c.place.afterAll ['/', '*']) 1 rest)
    | d :: rest =>
      if Text.isBlank d then run limits fuel mode ⟨rest, c.place.after d⟩
      else
        match d, mode.embedded with
        | '}', 0 :: outer => do
          let (s, opens, n) ← templateRun rest
          let piece := Token.template (String.ofList s) opens
          let tokens ← run limits fuel (Mode.after ⟨false, outer⟩ piece) (c.skip (n + 1))
          return (.symbol "\x7d", c.place) :: (piece, c.place) :: tokens
        | _, _ => do
          let (t, n) ← token? limits mode.signs c
          let tokens ← run limits fuel (mode.after t) (c.skip n)
          return (t, c.place) :: tokens

/-- The tokens of a script text. Every step takes at least one character. -/
def tokens? (maxText : Nat) (text : String) : Option (List (Token × Position)) :=
  run maxText (text.toList.length + 1) ⟨true, []⟩ ⟨text.toList, .start⟩

end Lexer

end Script

end DerivedSignal
