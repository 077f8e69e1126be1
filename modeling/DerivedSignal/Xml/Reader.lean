import DerivedSignal.Xml.CharacterData
import DerivedSignal.Xml.Node

namespace DerivedSignal

namespace Xml

/-- A name, with an empty qualifier if it has none. -/
structure Name where
  qualifier : String
  base : String
  deriving DecidableEq, Repr

/-- A name as it is written. -/
def Name.text (n : Name) : String :=
  if n.qualifier = "" then n.base else n.qualifier ++ ":" ++ n.base

/-- Addresses of namespaces under their qualifiers, the default one under the empty text. -/
abbrev Scope := List (String × String)

/-- The address that XML itself is bound to. -/
def ownAddress : String := "http://www.w3.org/XML/1998/namespace"

/-- The address of namespace declarations. -/
def declarationAddress : String := "http://www.w3.org/2000/xmlns/"

/-- An attribute before its qualifier is resolved. -/
structure RawAttribute where
  name : Name
  value : String
  position : Position

/-- What a start tag has said so far. -/
structure Header where
  declared : Scope
  attributes : List RawAttribute

namespace Header

/-- Declares a namespace. -/
def declare (h : Header) (qualifier address : String) : Header :=
  { h with declared := (qualifier, address) :: h.declared }

/-- Takes up an attribute, or the namespace that it declares. -/
def add (h : Header) (name : Name) (value : String) (p : Position) : Except Fault Header :=
  if name.qualifier = "xmlns" then
    if value = declarationAddress then .error ⟨.declarationAddress, p⟩
    else if name.base = "xml" && value ≠ ownAddress then .error ⟨.wrongAddress, p⟩
    else if name.base ≠ "xml" && value = ownAddress then .error ⟨.reservedAddress, p⟩
    else if (h.declared.lookup name.base).isSome then .error ⟨.repeatedNamespace name.base, p⟩
    else .ok (if value = ownAddress then h else h.declare name.base value)
  else if name.base = "xmlns" then
    if value = ownAddress then .error ⟨.reservedAddress, p⟩
    else if value = declarationAddress then .error ⟨.declarationAddress, p⟩
    else .ok (h.declare "" value)
  else .ok { h with attributes := ⟨name, value, p⟩ :: h.attributes }

/-- The namespace of an attribute. -/
def space? (scope : Scope) (a : RawAttribute) : Except Fault (Option String) :=
  if a.name.qualifier = "" then .ok none
  else if a.name.qualifier = "xml" then .ok (some ownAddress)
  else
    match scope.lookup a.name.qualifier with
    | some address => .ok (some address)
    | none => .error ⟨.unknownQualifier a.name.qualifier, a.position⟩

/-- Resolves attributes one after another; `seen` are those before them, the last one first. -/
def resolve (scope : Scope) (seen : List Attribute) :
    List RawAttribute → Except Fault (List Attribute)
  | [] => .ok seen.reverse
  | a :: rest =>
    match space? scope a with
    | .error e => .error e
    | .ok space =>
      if seen.any fun b => b.space == space && b.name == a.name.base then
        .error ⟨.repeatedAttribute a.name.base, a.position⟩
      else resolve scope (⟨space, a.name.base, a.value⟩ :: seen) rest

end Header

/-- How a start tag ends; it is cut if the text ends first. -/
inductive TagEnd where
  | opening
  | closed
  | cut
  deriving DecidableEq

/-- An element whose content is being read; the children are in reverse. -/
structure Frame where
  name : Name
  attributes : List Attribute
  row : Nat
  scope : Scope
  children : List Node

namespace Frame

/-- The finished element. -/
def toNode (f : Frame) : Node := .element f.name.base f.attributes f.row f.children.reverse

/-- Adds a child. -/
def push (f : Frame) (n : Node) : Frame := { f with children := n :: f.children }

end Frame

namespace Reader

/-- Reads a name with an optional qualifier. -/
def name (c : Cursor) : Except Fault (Name × Cursor) :=
  let (taken, after) := c.span isNameChar
  let front := taken.takeWhile (· ≠ ':')
  let (qualifier, base) :=
    match taken.dropWhile (· ≠ ':') with
    | [] => ([], front)
    | _ :: base => (front, base)
  let startsWell : List Char → Bool := fun cs =>
    match cs with
    | [] => true
    | a :: _ => isNameStart a
  if base.contains ':' || !startsWell qualifier || !startsWell base || base.isEmpty then
    c.fail .invalidName
  else .ok (⟨String.ofList qualifier, String.ofList base⟩, after)

/-- Reads a quote mark. -/
def quoteMark (c : Cursor) : Except Fault (Char × Cursor) :=
  match c.rest with
  | [] => Cursor.failAll .endOfText
  | a :: _ =>
    if a = '\x22' || a = '\x27' then .ok (a, c.next) else c.fail (.quoteMark (leadByte a))

/-- Reads the equals sign of an attribute. -/
def equalsSign (c : Cursor) : Except Fault Cursor :=
  (c.skipSpace.consume '=').map Cursor.skipSpace

/-- Reads an attribute. The raw value is between the quote marks, at the returned place. -/
def assignment (c : Cursor) : Except Fault (Name × List Char × Position × Cursor) := do
  let (name, c) ← name c
  let c ← equalsSign c
  let (mark, c) ← quoteMark c
  let (raw, after) ← c.text fun s => s.head? == some mark || s.head? == some '<'
  let after ← after.consume mark
  return (name, raw, c.position, after)

/-- Reads the attributes and the end of a start tag. At most `fuel` attributes are read. -/
def header : Nat → Header → Cursor → Except Fault (Header × TagEnd × Cursor)
  | 0, h, c => .ok (h, .cut, c)
  | fuel + 1, h, c =>
    if c.rest.isEmpty then .ok (h, .cut, c)
    else
      let inner := c.skipSpace
      match inner.rest with
      | [] => Cursor.failAll .endOfText
      | '/' :: _ => (inner.next.consume '>').map fun c => (h, .closed, c)
      | '>' :: _ => .ok (h, .opening, inner.next)
      | a :: _ =>
        if !c.atSpace then inner.fail (.blank (leadByte a))
        else do
          let (name, raw, place, after) ← assignment inner
          let value ← readValue raw place
          let h ← h.add name value inner.position
          header fuel h after

/-- Reads a start tag, where `outer` is the scope around it. -/
def startTag (outer : Scope) (c : Cursor) : Except Fault (Frame × TagEnd × Cursor) := do
  let (name, after) ← name c.next
  if name.qualifier = "xmlns" then c.next.fail .declarationQualifier
  else
    let (h, ending, after) ← header (after.rest.length + 1) ⟨[], []⟩ after
    if ending = .cut then return (⟨name, [], c.position.row, outer, []⟩, .cut, after)
    else
      let scope := h.declared ++ outer
      let attributes ← Header.resolve scope [] h.attributes.reverse
      if name.qualifier ≠ "" && (scope.lookup name.qualifier).isNone then
        c.next.fail (.unknownQualifier name.qualifier)
      else return (⟨name, attributes, c.position.row, scope, []⟩, ending, after)

/-- Reads an end tag. -/
def endTag (c : Cursor) : Except Fault (Name × Cursor) := do
  let (name, after) ← name (c.skip 2)
  let after ← after.skipSpace.consume '>'
  return (name, after)

/-- Whether a text has two hyphens in a row or ends with one. -/
def hasHyphens : List Char → Bool
  | [] => false
  | ['-'] => true
  | '-' :: '-' :: _ => true
  | _ :: rest => hasHyphens rest

/-- Whether the end of a literal section stands in a text. -/
def hasSectionEnd : List Char → Bool
  | [] => false
  | ']' :: ']' :: '>' :: _ => true
  | _ :: rest => hasSectionEnd rest

/-- Reads a comment. -/
def comment (c : Cursor) : Except Fault Cursor := do
  let (raw, after) ← (c.skip 4).text fun s => "-->".toList.isPrefixOf s
  let after ← after.consumeAll "-->"
  if hasHyphens raw then c.fail .comment else return after

/-- Reads a processing instruction. -/
def instruction (c : Cursor) : Except Fault Cursor := do
  if c.startsWith "<?xml " then c.fail .declaration
  else
    let target := c.skip 2
    let (name, after) := target.span isNameChar
    match name with
    | [] => target.fail .invalidName
    | a :: _ =>
      if !isNameStart a then target.fail .invalidName
      else
        let (_, after) ← after.skipSpace.text fun s => "?>".toList.isPrefixOf s
        after.consumeAll "?>"

/-- Reads a literal section. -/
def literalSection (c : Cursor) : Except Fault (String × Cursor) := do
  let (raw, after) ← (c.skip 9).text fun s => "]]>".toList.isPrefixOf s
  let after ← after.consumeAll "]]>"
  return (readSection raw, after)

/-- Reads plain text. -/
def plainText (c : Cursor) : Except Fault (String × Cursor) := do
  let (raw, after) ← c.text fun s => s.head? == some '<'
  if hasSectionEnd raw then after.fail .sectionEnd
  else
    let content ← readText raw c.position
    return (content, after)

/-- Reads the content of the innermost open element and of those around it, up to the end of the
outermost one. At most `fuel` items are read. -/
def content : Nat → Frame → List Frame → Cursor → Except Fault (Node × Cursor)
  | 0, _, _, _ => Cursor.failAll .unclosedRoot
  | fuel + 1, frame, outer, c =>
    match c.rest with
    | [] => Cursor.failAll .unclosedRoot
    | ['<'] => c.fail .unknownToken
    | '<' :: '!' :: _ =>
      if c.startsWith "<!--" then do
        let c ← comment c
        content fuel frame outer c
      else if c.startsWith "<![CDATA[" then do
        let (s, c) ← literalSection c
        content fuel (frame.push (.text s)) outer c
      else c.fail .unknownToken
    | '<' :: '?' :: _ => do
      let c ← instruction c
      content fuel frame outer c
    | '<' :: '/' :: _ => do
      let (name, after) ← endTag c
      if name ≠ frame.name then c.fail (.closingTag frame.name.text name.text)
      else
        match outer with
        | [] => return (frame.toNode, after)
        | parent :: outer => content fuel (parent.push frame.toNode) outer after
    | '<' :: _ => do
      let (inner, ending, c) ← startTag frame.scope c
      match ending with
      | .cut => Cursor.failAll .unclosedRoot
      | .closed => content fuel (frame.push inner.toNode) outer c
      | .opening => content fuel inner (frame :: outer) c
    | _ => do
      let (s, c) ← plainText c
      content fuel (frame.push (.text s)) outer c

/-- Reads comments and processing instructions outside the root element, at most `fuel` of them. -/
def surroundings : Nat → Cursor → Except Fault Cursor
  | 0, c => .ok c
  | fuel + 1, c =>
    let c := c.skipSpace
    if c.startsWith "<!--" then do surroundings fuel (← comment c)
    else if c.startsWith "<?" then do surroundings fuel (← instruction c)
    else .ok c

/-- Reads white space in a declaration; it may be missing at the end. -/
def declarationSpace (c : Cursor) : Except Fault Cursor :=
  if c.atSpace then .ok c.skipSpace
  else
    match c.rest with
    | a :: _ => if c.startsWith "?>" then .ok c else c.fail (.blank (leadByte a))
    | [] => .ok c

/-- Reads an attribute of a declaration and the white space behind it. -/
def declarationPart (c : Cursor) : Except Fault Cursor := do
  let (_, _, _, c) ← assignment c
  declarationSpace c

/-- Reads a declaration. -/
def declaration (c : Cursor) : Except Fault Cursor := do
  let c ← declarationSpace (c.skip 5)
  if !c.startsWith "version" then c.fail (.literal "version")
  else
    let c ← declarationPart c
    let c ← if c.startsWith "encoding" then declarationPart c else pure c
    let c ← if c.startsWith "standalone" then (assignment c).map (·.2.2.2) else pure c
    c.skipSpace.consumeAll "?>"

/-- Reads the root element, if there is one. -/
def root (c : Cursor) : Except Fault (Node × Cursor) :=
  match c.rest with
  | '<' :: _ => do
    let (frame, ending, c) ← startTag [] c
    match ending with
    | .cut => Cursor.failAll .noRoot
    | .closed => return (frame.toNode, c)
    | .opening => content (c.rest.length + 1) frame [] c
  | [] => Cursor.failAll .noRoot
  | _ => c.fail .unknownToken

end Reader

/-- The cursor at the start of a text, behind a byte order mark. -/
def Cursor.ofText (s : String) : Cursor :=
  let c : Cursor := ⟨s.toList, Position.first⟩
  match c.rest with
  | a :: _ => if a.toNat = 0xfeff then c.next else c
  | [] => c

/-- Reads a document: the root element. -/
def parse (s : String) : Except Fault Node := do
  let c := Cursor.ofText s
  let fuel := c.rest.length + 1
  let c ← if c.startsWith "<?xml " then Reader.declaration c else pure c
  let c ← Reader.surroundings fuel c
  if c.startsWith "<!DOCTYPE" then Cursor.failAll .doctype
  else
    let (node, c) ← Reader.root c
    let c ← Reader.surroundings fuel c
    if c.rest.isEmpty then return node else c.fail .unknownToken

end Xml

end DerivedSignal
