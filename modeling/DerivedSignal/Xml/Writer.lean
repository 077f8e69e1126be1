namespace DerivedSignal

namespace Xml

/-- A character, or the reference that stands for it in markup. -/
def escapeChar : Char → List Char
  | '<' => "&lt;".toList
  | '>' => "&gt;".toList
  | '&' => "&amp;".toList
  | '\x27' => "&apos;".toList
  | '\x22' => "&quot;".toList
  | c => [c]

/-- A text in which no character is taken for markup. -/
def escape (s : String) : String := String.ofList (s.toList.flatMap escapeChar)

/-- Two spaces for each level. -/
def indentation (level : Nat) : String := String.ofList (List.replicate (2 * level) ' ')

/-- An element that holds a text. -/
def leaf (level : Nat) (tag content : String) : String :=
  indentation level ++ "<" ++ tag ++ ">" ++ escape content ++ "</" ++ tag ++ ">"

/-- An attribute in a start tag. -/
def attributeText (a : String × String) : String := " " ++ a.1 ++ "=\"" ++ escape a.2 ++ "\""

/-- An element around further lines. -/
def block (level : Nat) (tag : String) (attributes : List (String × String))
    (inside : List String) : List String :=
  (indentation level ++ "<" ++ tag ++ String.join (attributes.map attributeText) ++ ">") ::
    inside ++ [indentation level ++ "</" ++ tag ++ ">"]

/-- A document of some lines, without a line end after the last one. -/
def document (lines : List String) : String :=
  "\n".intercalate ("<?xml version=\"1.0\" encoding=\"UTF-8\"?>" :: lines)

end Xml

end DerivedSignal
