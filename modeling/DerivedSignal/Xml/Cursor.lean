import DerivedSignal.Xml.Fault

namespace DerivedSignal

namespace Xml

/-- Whether a character may stand in a document. -/
def isAllowed (c : Char) : Bool :=
  if c.toNat < 0x20 then c = '\t' || c = '\n' || c = '\r'
  else c.toNat ≠ 0xfffe && c.toNat ≠ 0xffff

/-- The white space of markup. -/
def isSpace (c : Char) : Bool := c = ' ' || c = '\t' || c = '\n' || c = '\r'

/-- Whether a number lies in one of some ranges. -/
def inRanges (ranges : List (Nat × Nat)) (n : Nat) : Bool :=
  ranges.any fun r => r.1 ≤ n && n ≤ r.2

/-- The characters that a name may start with. -/
def nameStarts : List (Nat × Nat) :=
  [(0x3a, 0x3a), (0x41, 0x5a), (0x5f, 0x5f), (0x61, 0x7a), (0xc0, 0xd6), (0xd8, 0xf6),
   (0xf8, 0x2ff), (0x370, 0x37d), (0x37f, 0x1fff), (0x200c, 0x200d), (0x2070, 0x218f),
   (0x2c00, 0x2fef), (0x3001, 0xd7ff), (0xf900, 0xfdcf), (0xfdf0, 0xfffd), (0x10000, 0xeffff)]

/-- The further characters of names. -/
def nameExtras : List (Nat × Nat) :=
  [(0x2d, 0x2e), (0x30, 0x39), (0xb7, 0xb7), (0x300, 0x36f), (0x203f, 0x2040)]

/-- Whether a name may start with a character. -/
def isNameStart (c : Char) : Bool := inRanges nameStarts c.toNat

/-- Whether a character may stand in a name. -/
def isNameChar (c : Char) : Bool := isNameStart c || inRanges nameExtras c.toNat

/-- The character with the number of the first byte of a character's encoding, which stands for an
unexpected character in messages. -/
def leadByte (c : Char) : Char :=
  let n := c.toNat
  if n < 0x80 then c
  else if n < 0x800 then Char.ofNat (0xc0 + n / 0x40)
  else if n < 0x10000 then Char.ofNat (0xe0 + n / 0x1000)
  else Char.ofNat (0xf0 + n / 0x40000)

/-- What is left of a text, and the place at which it starts. -/
structure Cursor where
  rest : List Char
  position : Position
  deriving DecidableEq, Repr

namespace Cursor

/-- A fault at the cursor. -/
def fail {α : Type} (c : Cursor) (p : Problem) : Except Fault α := .error ⟨p, c.position⟩

/-- A fault of the whole text. -/
def failAll {α : Type} (p : Problem) : Except Fault α := .error ⟨p, Position.first⟩

/-- The cursor behind the next character. -/
def next (c : Cursor) : Cursor :=
  match c.rest with
  | [] => c
  | a :: rest => ⟨rest, c.position.after a⟩

/-- The cursor behind some characters. -/
def skip : Nat → Cursor → Cursor
  | 0, c => c
  | n + 1, c => skip n c.next

/-- Whether a text comes next. -/
def startsWith (c : Cursor) (text : String) : Bool := text.toList.isPrefixOf c.rest

/-- The characters up to the first that does not satisfy `p`, and the cursor behind them. -/
def span (p : Char → Bool) (c : Cursor) : List Char × Cursor :=
  let taken := c.rest.takeWhile p
  (taken, ⟨c.rest.dropWhile p, c.position.afterAll taken⟩)

/-- The cursor behind white space. -/
def skipSpace (c : Cursor) : Cursor := (c.span isSpace).2

/-- Whether white space comes next. -/
def atSpace (c : Cursor) : Bool :=
  match c.rest with
  | [] => false
  | a :: _ => isSpace a

/-- The cursor behind a character that must come next. -/
def consume (c : Cursor) (expected : Char) : Except Fault Cursor :=
  match c.rest with
  | [] => failAll .endOfText
  | a :: _ => if a = expected then .ok c.next else c.fail (.character expected (leadByte a))

/-- The cursor behind a text that must come next. -/
def consumeAll (c : Cursor) (expected : String) : Except Fault Cursor :=
  if c.startsWith expected then .ok (c.skip expected.length) else c.fail (.literal expected)

/-- The characters up to where `stop` holds of what is left, or to the end. -/
def scan (stop : List Char → Bool) : List Char → Position → Except Fault (List Char × Cursor)
  | [], p => .ok ([], ⟨[], p⟩)
  | a :: rest, p =>
    if !isAllowed a then .error ⟨.forbidden a, p⟩
    else if stop (a :: rest) then .ok ([], ⟨a :: rest, p⟩)
    else
      match scan stop rest (p.after a) with
      | .error e => .error e
      | .ok (taken, c) => .ok (a :: taken, c)

/-- The characters of a document up to where `stop` holds of what is left, or to the end. -/
def text (stop : List Char → Bool) (c : Cursor) : Except Fault (List Char × Cursor) :=
  scan stop c.rest c.position

end Cursor

end Xml

end DerivedSignal
