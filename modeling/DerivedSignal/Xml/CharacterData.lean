import DerivedSignal.Number.Power
import DerivedSignal.Xml.Cursor

namespace DerivedSignal

namespace Xml

/-- A character of a raw text, as it stands there or given by a reference. -/
inductive Piece where
  | plain (c : Char)
  | referenced (c : Char)
  deriving DecidableEq, Repr

/-- What a reference stands for. -/
inductive Reference where
  | char (c : Char)
  | unknown (name : String)

namespace Reference

/-- The reference of a name. -/
def named : String → Reference
  | "quot" => .char '\x22'
  | "amp" => .char '&'
  | "apos" => .char '\x27'
  | "lt" => .char '<'
  | "gt" => .char '>'
  | name => .unknown name

/-- The value of a digit. -/
def digit? (base : Nat) (c : Char) : Option Nat :=
  let n := c.toNat
  let value := if 48 ≤ n && n ≤ 57 then n - 48 else if 97 ≤ n && n ≤ 102 then n - 87
    else if 65 ≤ n && n ≤ 70 then n - 55 else base
  if value < base then some value else none

/-- The number that digits write; nothing if there is none or it has more than 32 bits. -/
def number? (base : Nat) (digits : List Char) : Option Nat :=
  let n := digits.foldl (fun n c => n * base + (digit? base c).getD 0) 0
  if digits.isEmpty || n ≥ twoTo 32 then none else some n

/-- The character of a number; numbers that are none give the replacement character. -/
def ofNumber? (n : Nat) : Option Reference :=
  let c := if n < 0xd800 ∨ (0xdfff < n ∧ n < 0x110000) then Char.ofNat n else Char.ofNat 0xfffd
  if isAllowed c then some (.char c) else none

/-- The number of a character reference, behind its number sign, and what follows it. -/
def numeric? (s : List Char) : Option (Nat × List Char) :=
  match s with
  | 'x' :: s =>
    (number? 16 (s.takeWhile fun c => (digit? 16 c).isSome)).map fun n =>
      (n, s.dropWhile fun c => (digit? 16 c).isSome)
  | s =>
    (number? 10 (s.takeWhile fun c => (digit? 10 c).isSome)).map fun n =>
      (n, s.dropWhile fun c => (digit? 10 c).isSome)

/-- The content of a reference, behind its ampersand, and what follows it. -/
def content? (s : List Char) : Option (Reference × List Char) :=
  match s with
  | '#' :: s =>
    match numeric? s with
    | some (n, rest) => (ofNumber? n).map fun r => (r, rest)
    | none => none
  | c :: rest =>
    if isNameStart c then
      some (named (String.ofList (c :: rest.takeWhile isNameChar)), rest.dropWhile isNameChar)
    else none
  | [] => none

/-- The reference behind an ampersand, and what follows its semicolon. -/
def read? (s : List Char) : Option (Reference × List Char) :=
  match content? s with
  | some (r, ';' :: rest) => some (r, rest)
  | _ => none

theorem length_dropWhile_le {α : Type} (p : α → Bool) (s : List α) :
    (s.dropWhile p).length ≤ s.length :=
  (List.dropWhile_sublist p).length_le

theorem length_of_numeric? {s rest : List Char} {n : Nat} (h : numeric? s = some (n, rest)) :
    rest.length ≤ s.length := by
  unfold numeric? at h
  split at h
  next s =>
    obtain ⟨_, _, he⟩ := Option.map_eq_some_iff.mp h
    cases he
    exact Nat.le_succ_of_le (length_dropWhile_le _ s)
  next =>
    obtain ⟨_, _, he⟩ := Option.map_eq_some_iff.mp h
    cases he
    exact length_dropWhile_le _ s

theorem length_of_content? {s rest : List Char} {r : Reference}
    (h : content? s = some (r, rest)) : rest.length ≤ s.length := by
  unfold content? at h
  split at h
  next s =>
    split at h
    next n rest' hn =>
      obtain ⟨_, _, he⟩ := Option.map_eq_some_iff.mp h
      cases he
      exact Nat.le_succ_of_le (length_of_numeric? hn)
    next => simp at h
  next c tail _ =>
    split at h
    next =>
      cases h
      exact Nat.le_succ_of_le (length_dropWhile_le _ tail)
    next => simp at h
  next => simp at h

/-- A reference takes at least its semicolon. -/
theorem length_of_read? {s rest : List Char} {r : Reference} (h : read? s = some (r, rest)) :
    rest.length < s.length := by
  unfold read? at h
  split at h
  next r' tail hc =>
    cases h
    exact Nat.lt_of_lt_of_le (Nat.lt_succ_self _) (length_of_content? hc)
  next => simp at h

end Reference

/-- The pieces of a raw text that starts at a place. -/
def pieces (s : List Char) (p : Position) : Except Fault (List Piece) :=
  match s with
  | [] => .ok []
  | c :: rest =>
    if c = '&' then
      match _h : Reference.read? rest with
      | none => .error ⟨.malformedReference, p⟩
      | some (.unknown name, _) => .error ⟨.unknownReference name, p⟩
      | some (.char r, rest') =>
        match pieces rest' (p.afterAll ((c :: rest).take (rest.length + 1 - rest'.length))) with
        | .error e => .error e
        | .ok ps => .ok (.referenced r :: ps)
    else
      match pieces rest (p.after c) with
      | .error e => .error e
      | .ok ps => .ok (.plain c :: ps)
termination_by s.length
decreasing_by
  · have := Reference.length_of_read? _h
    simp only [List.length_cons]
    omega
  · simp

/-- The characters of an attribute's value: plain line ends and tabs become spaces. -/
def attributeValue : List Piece → List Char
  | [] => []
  | .plain '\x0d' :: .plain '\n' :: rest => ' ' :: attributeValue rest
  | .plain c :: rest => (if isSpace c then ' ' else c) :: attributeValue rest
  | .referenced c :: rest => c :: attributeValue rest

/-- The characters of a text: a carriage return, alone or before a line feed, becomes a line feed.
`held` says that a carriage return waits for what follows it, and `verbatim` that the character
before was a referenced one, which shields the next one. -/
def uniformLines (held verbatim : Bool) : List Piece → List Char
  | [] => if held then ['\x0d'] else []
  | .referenced c :: rest =>
    (if held then ['\x0d'] else []) ++
      (if c = '\x0d' then uniformLines true true rest else c :: uniformLines false true rest)
  | .plain c :: rest =>
    if verbatim then
      (if held then ['\x0d'] else []) ++
        (if c = '\x0d' then uniformLines true false rest else c :: uniformLines false false rest)
    else
      (if held then ['\n'] else []) ++
        (if c = '\x0d' then
          (if rest.isEmpty then ['\n'] else uniformLines true false rest)
        else if held && c = '\n' then uniformLines false false rest
        else c :: uniformLines false false rest)

/-- The value of an attribute whose raw text starts at a place. -/
def readValue (raw : List Char) (p : Position) : Except Fault String :=
  (pieces raw p).map fun ps => String.ofList (attributeValue ps)

/-- The text that a raw text at a place stands for. -/
def readText (raw : List Char) (p : Position) : Except Fault String :=
  (pieces raw p).map fun ps => String.ofList (uniformLines false false ps)

/-- The text of a literal section. -/
def readSection (raw : List Char) : String :=
  String.ofList (uniformLines false false (raw.map Piece.plain))

end Xml

end DerivedSignal
