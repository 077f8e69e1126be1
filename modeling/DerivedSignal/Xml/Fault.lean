import DerivedSignal.Text.Quoted

namespace DerivedSignal

namespace Xml

/-- A place in a text: row and column, counted from one. -/
structure Position where
  row : Nat
  column : Nat
  deriving DecidableEq, Repr

namespace Position

/-- The place of the first character. -/
def first : Position := ⟨1, 1⟩

/-- The place behind a character; only a line feed ends a row. -/
def after (p : Position) (c : Char) : Position :=
  if c = '\n' then ⟨p.row + 1, 1⟩ else ⟨p.row, p.column + 1⟩

/-- The place behind some characters. -/
def afterAll (p : Position) (cs : List Char) : Position := cs.foldl after p

/-- Row and column. -/
def text (p : Position) : String := toString p.row ++ ":" ++ toString p.column

end Position

/-- What is wrong with a document. -/
inductive Problem where
  | unknownToken
  | invalidName
  /-- A declaration that is not at the start of the document. -/
  | declaration
  | endOfText
  | noRoot
  | unclosedRoot
  | doctype
  | closingTag (expected found : String)
  | character (expected found : Char)
  | blank (found : Char)
  | quoteMark (found : Char)
  | literal (expected : String)
  | comment
  /-- The end of a literal section in plain text. -/
  | sectionEnd
  | malformedReference
  | unknownReference (name : String)
  | forbidden (c : Char)
  | repeatedAttribute (name : String)
  | repeatedNamespace (name : String)
  | unknownQualifier (name : String)
  /-- The qualifier of XML itself is bound to something else. -/
  | wrongAddress
  /-- The address of XML itself is bound to another qualifier. -/
  | reservedAddress
  /-- The address of namespace declarations is bound to a qualifier. -/
  | declarationAddress
  /-- The qualifier of namespace declarations is used for an element. -/
  | declarationQualifier
  deriving DecidableEq, Repr

/-- A problem and its place; problems of the whole text are at its start. -/
structure Fault where
  problem : Problem
  position : Position
  deriving DecidableEq, Repr

/-- The wording of a problem at a place. -/
def Problem.message (place : String) : Problem → String
  | unknownToken => "unknown token at " ++ place
  | invalidName => "invalid name token at " ++ place
  | declaration => "unexpected XML declaration at " ++ place
  | endOfText => "unexpected end of stream"
  | noRoot => "the document does not have a root node"
  | unclosedRoot => "the root node was opened but never closed"
  | doctype => "XML with DTD detected"
  | closingTag expected found =>
    "expected '" ++ expected ++ "' tag, not '" ++ found ++ "' at " ++ place
  | character expected found =>
    "expected '" ++ expected.toString ++ "' not '" ++ found.toString ++ "' at " ++ place
  | blank found => "expected a whitespace not '" ++ found.toString ++ "' at " ++ place
  | quoteMark found => "expected a quote not '" ++ found.toString ++ "' at " ++ place
  | literal expected => "expected '" ++ expected ++ "' at " ++ place
  | comment => "comment at " ++ place ++ " contains '--'"
  | sectionEnd => "']]>' at " ++ place ++ " is not allowed inside a character data"
  | malformedReference => "malformed entity reference at " ++ place
  | unknownReference name => "unknown entity reference '" ++ name ++ "' at " ++ place
  | forbidden c => "a non-XML character " ++ Text.quotedChar c ++ " found at " ++ place
  | repeatedAttribute name => "attribute '" ++ name ++ "' at " ++ place ++ " is already defined"
  | repeatedNamespace name => "namespace '" ++ name ++ "' at " ++ place ++ " is already defined"
  | unknownQualifier name => "an unknown namespace prefix '" ++ name ++ "' at " ++ place
  | wrongAddress => "'xml' namespace prefix mapped to wrong URI at " ++ place
  | reservedAddress =>
    "the 'xml' namespace URI is used at " ++ place ++ ", but it must not be declared"
  | declarationAddress => "the 'xmlns' URI is used at " ++ place ++ ", but it must not be declared"
  | declarationQualifier => "the 'xmlns' prefix is used at " ++ place ++ ", but it must not be"

/-- The wording of a fault. -/
def Fault.message (f : Fault) : String := f.problem.message f.position.text

end Xml

end DerivedSignal
