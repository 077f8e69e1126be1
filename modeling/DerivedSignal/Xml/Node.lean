namespace DerivedSignal

namespace Xml

/-- An attribute. `space` is the address of its namespace, if it has a qualifier. -/
structure Attribute where
  space : Option String
  name : String
  value : String
  deriving DecidableEq, Repr

/-- A text, or an element with the row on which it starts. The name is without its qualifier. -/
inductive Node where
  | text (content : String)
  | element (name : String) (attributes : List Attribute) (row : Nat) (children : List Node)
  deriving Repr

namespace Node

/-- The name of an element. -/
def name? : Node → Option String
  | text _ => none
  | element name _ _ _ => some name

/-- The row on which an element starts. -/
def row : Node → Nat
  | text _ => 0
  | element _ _ row _ => row

/-- What stands directly inside an element. -/
def children : Node → List Node
  | text _ => []
  | element _ _ _ children => children

/-- The elements of a name directly inside an element. -/
def elements (n : Node) (name : String) : List Node :=
  n.children.filter fun child => child.name? == some name

/-- The value of the attribute of a name that has no qualifier. -/
def attribute? (n : Node) (name : String) : Option String :=
  match n with
  | text _ => none
  | element _ attributes _ _ =>
    (attributes.find? fun a => a.space.isNone && a.name == name).map (·.value)

mutual

/-- All text inside a node, at any depth. -/
def allText : Node → String
  | text content => content
  | element _ _ _ children => allTexts children

/-- All text inside some nodes. -/
def allTexts : List Node → String
  | [] => ""
  | n :: ns => allText n ++ allTexts ns

end

end Node

end Xml

end DerivedSignal
