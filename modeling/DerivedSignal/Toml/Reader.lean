import DerivedSignal.Toml.Scalar
import DerivedSignal.Toml.Tree

namespace DerivedSignal

namespace Toml

/-- The number of arrays and tables in braces that may stand inside one another. -/
def nestingLimit : Nat := 79

/-- The text without blanks, line ends and comments in front; a comment ends with its line. -/
def skipLines : Nat → List Char → List Char
  | 0, s => s
  | fuel + 1, s =>
    let s := skipBlanks s
    match s with
    | '#' :: _ =>
      match newline? (skipComment s) with
      | some rest => skipLines fuel rest
      | none => s
    | s =>
      match newline? s with
      | some rest => skipLines fuel rest
      | none => s

/-- The last of some keys and those before it. -/
def splitKeys (keys : List String) : List String × String := (keys.dropLast, keys.getLast?.getD "")

mutual

/-- A value. At most `depth` arrays and tables in braces may stand around further values. -/
def readValue? : Nat → Nat → List Char → Option (Value × List Char)
  | 0, _, _ => none
  | fuel + 1, depth, s =>
    match s with
    | '\x22' :: _ => (readText? s).map fun r => (.string r.1, r.2)
    | '\x27' :: _ => (readText? s).map fun r => (.string r.1, r.2)
    | 't' :: 'r' :: 'u' :: 'e' :: rest => some (.boolean true, rest)
    | 'f' :: 'a' :: 'l' :: 's' :: 'e' :: rest => some (.boolean false, rest)
    | '[' :: rest =>
      match depth with
      | 0 => none
      | depth + 1 => (readItems? fuel depth rest).map fun r => (.array r.1, r.2)
    | '{' :: rest =>
      match depth with
      | 0 => none
      | depth + 1 => do
        let (pairs, rest) ← match skipBlanks rest with
          | '}' :: rest => some ([], rest)
          | rest => readPairs? fuel depth rest
        let parts ← Parts.assignAll [] pairs
        return (.table (finish parts), rest)
    | _ => readMeasure? s

/-- The items of an array up to its closing bracket. -/
def readItems? : Nat → Nat → List Char → Option (List Value × List Char)
  | 0, _, _ => none
  | fuel + 1, depth, s =>
    match skipLines s.length s with
    | ']' :: rest => some ([], rest)
    | s => do
      let (item, rest) ← readValue? fuel depth s
      match skipLines rest.length rest with
      | ',' :: rest =>
        let (items, rest) ← readItems? fuel depth rest
        return (item :: items, rest)
      | ']' :: rest => return ([item], rest)
      | _ => none

/-- The keys and values of a table in braces up to the closing one. -/
def readPairs? : Nat → Nat → List Char → Option (List (List String × String × Value) × List Char)
  | 0, _, _ => none
  | fuel + 1, depth, s => do
    let (keys, rest) ← readKeys? keyLimit s
    let (path, key) := splitKeys keys
    match rest with
    | '=' :: rest =>
      let (value, rest) ← readValue? fuel depth (skipBlanks rest)
      match skipBlanks rest with
      | ',' :: rest =>
        let (pairs, rest) ← readPairs? fuel depth rest
        return ((path, key, value) :: pairs, rest)
      | '}' :: rest => return ([(path, key, value)], rest)
      | _ => none
    | _ => none

end

/-- One line of a document, or several with a value that spans them. -/
inductive Statement where
  | assign (path : List String) (key : String) (v : Value)
  | table (path : List String) (key : String)
  | element (path : List String) (key : String)

/-- A header or an assignment, up to the end of its line. -/
def readStatement? (s : List Char) : Option (Statement × List Char) := do
  match s with
  | '[' :: '[' :: rest =>
    let (keys, rest) ← readKeys? keyLimit rest
    let (path, key) := splitKeys keys
    match rest with
    | ']' :: ']' :: rest => return (.element path key, ← lineEnd? rest)
    | _ => none
  | '[' :: rest =>
    let (keys, rest) ← readKeys? keyLimit rest
    let (path, key) := splitKeys keys
    match rest with
    | ']' :: rest => return (.table path key, ← lineEnd? rest)
    | _ => none
  | _ =>
    let (keys, rest) ← readKeys? keyLimit s
    let (path, key) := splitKeys keys
    match rest with
    | '=' :: rest =>
      let (value, rest) ← readValue? (2 * rest.length + 2) nestingLimit (skipBlanks rest)
      return (.assign path key value, ← lineEnd? rest)
    | _ => none

/-- The statements of a document, at most `fuel` lines. -/
def readStatements? : Nat → List Char → Option (List Statement)
  | 0, _ => none
  | fuel + 1, s =>
    match skipBlanks s with
    | [] => some []
    | '#' :: rest => (lineEnd? ('#' :: rest)).bind (readStatements? fuel)
    | '\n' :: rest => readStatements? fuel rest
    | '\x0d' :: '\n' :: rest => readStatements? fuel rest
    | s =>
      match readStatement? s with
      | some (statement, rest) => (readStatements? fuel rest).map (statement :: ·)
      | none => none

/-- Where the assignments that follow a header go. -/
inductive Target where
  | root
  | table (path : List String) (key : String)
  | element (path : List String) (key : String)

/-- A document under construction: what is finished, and the table that is open. -/
structure Draft where
  finished : Parts
  target : Target
  opened : Parts

namespace Draft

/-- Closes the open table. -/
def close (d : Draft) : Option Parts :=
  match d.target with
  | .root => some d.opened
  | .table path key => Parts.putTable d.finished path key d.opened
  | .element path key => Parts.pushTable d.finished path key d.opened

/-- Makes room for an array of tables, which must not be anything else. -/
def reserve (ps : Parts) (path : List String) (key : String) : Option Parts :=
  (Parts.descend false (fun _ ps =>
    match ps.lookup key with
    | none => some (ps, ())
    | some (.tables _) => some (ps, ())
    | some _ => none) path false ps).map (·.1)

/-- Takes up a statement. -/
def step (d : Draft) : Statement → Option Draft
  | .assign path key v => (Parts.assign d.opened path key v).map fun opened => { d with opened }
  | .table path key => do
    let (finished, opened) ← Parts.takeTable (← d.close) path key
    return ⟨finished, .table path key, opened⟩
  | .element path key => do
    let finished ← reserve (← d.close) path key
    return ⟨finished, .element path key, []⟩

end Draft

/-- The text without a byte order mark in front. -/
def skipMark : List Char → List Char
  | c :: rest => if c.toNat = 0xfeff then rest else c :: rest
  | [] => []

/-- The table that a document describes. -/
def parse? (text : String) : Option (List (String × Value)) := do
  let s := skipMark text.toList
  let statements ← readStatements? (s.length + 1) s
  let draft ← statements.foldlM Draft.step ⟨[], .root, []⟩
  return finish (← draft.close)

end Toml

end DerivedSignal
