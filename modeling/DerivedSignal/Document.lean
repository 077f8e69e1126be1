import DerivedSignal.Definition
import DerivedSignal.Error
import DerivedSignal.NameMap
import DerivedSignal.Text.Blank
import DerivedSignal.Xml.Reader
import DerivedSignal.Xml.Writer

namespace DerivedSignal

namespace Document

/-- The element that holds one entry. -/
def entryTag : String := "snippet"

/-- The elements inside an entry. -/
def linkedTag : String := "linkedPlot"

/-- The element of the preamble. -/
def globalsTag : String := "global"

/-- The element of the expression. -/
def expressionTag : String := "equation"

/-- The root of a document of definitions. -/
def definitionsTag : String := "customMathEquations"

/-- The root of a document of snippets. -/
def snippetsTag : String := "snippets"

/-- The root element of a document; nothing if the text is blank. -/
def root? (text : String) : Except Error (Option Xml.Node) :=
  if Text.allBlank text then .ok none
  else
    match Xml.parse text with
    | .ok root => .ok (some root)
    | .error fault => .error (.document fault.position.row fault.message)

/-- The text of the first element of a name inside an entry, trimmed; empty if there is none. -/
def childText (entry : Xml.Node) (tag : String) : String :=
  match entry.elements tag with
  | child :: _ => Text.trim child.allText
  | [] => ""

/-- The name of an entry. -/
def entryName (entry : Xml.Node) : Except Error String :=
  match entry.attribute? "name" with
  | some name => .ok name
  | none => .error (.document entry.row "<snippet> element without a name attribute")

/-- The entries of a document, read one after another. -/
def readEntries {α : Type} (read : Xml.Node → String → α) :
    List Xml.Node → NameMap α → Except Error (NameMap α)
  | [], m => .ok m
  | entry :: rest, m =>
    match entryName entry with
    | .error e => .error e
    | .ok name => readEntries read rest (m.insert name (read entry name))

/-- The definition of an entry. -/
def definitionOf (entry : Xml.Node) (name : String) : Definition :=
  ⟨name, childText entry linkedTag, childText entry globalsTag, childText entry expressionTag⟩

/-- The snippet of an entry. -/
def snippetOf (entry : Xml.Node) (name : String) : Snippet :=
  ⟨name, childText entry globalsTag, childText entry expressionTag⟩

/-- Reads definitions. A blank text has none. -/
def readDefinitions (text : String) : Except Error (NameMap Definition) :=
  match root? text with
  | .error e => .error e
  | .ok none => .ok NameMap.empty
  | .ok (some root) =>
    let found := root.name?.getD ""
    if found = definitionsTag then
      readEntries definitionOf (root.elements entryTag) NameMap.empty
    else
      .error (.document root.row
        ("expected root element <" ++ definitionsTag ++ ">, found <" ++ found ++ ">"))

/-- Reads snippets, whatever the root is called. A blank text has none. -/
def readSnippets (text : String) : Except Error (NameMap Snippet) :=
  match root? text with
  | .error e => .error e
  | .ok none => .ok NameMap.empty
  | .ok (some root) => readEntries snippetOf (root.elements entryTag) NameMap.empty

/-- The lines of an entry. -/
def entryLines (name : String) (fields : List (String × String)) : List String :=
  Xml.block 1 entryTag [("name", name)] (fields.map fun f => Xml.leaf 2 f.1 f.2)

/-- The lines of a definition. -/
def definitionLines (d : Definition) : List String :=
  entryLines d.name
    [(linkedTag, d.linked), (globalsTag, d.globals), (expressionTag, d.expression)]

/-- The lines of a snippet. -/
def snippetLines (s : Snippet) : List String :=
  entryLines s.name [(globalsTag, s.globals), (expressionTag, s.equation)]

/-- Writes definitions in the order of their names. -/
def writeDefinitions (m : NameMap Definition) : String :=
  Xml.document (Xml.block 0 definitionsTag [] (m.values.flatMap definitionLines))

/-- Writes snippets in the order of their names. -/
def writeSnippets (m : NameMap Snippet) : String :=
  Xml.document (Xml.block 0 snippetsTag [] (m.values.flatMap snippetLines))

end Document

end DerivedSignal
