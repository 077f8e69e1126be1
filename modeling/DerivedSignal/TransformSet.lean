import DerivedSignal.Document
import DerivedSignal.Transform

namespace DerivedSignal

/-- Compiled signals under their names. All scripts are held to the same limits. -/
structure TransformSet where
  limits : Limits
  transforms : NameMap (Transform Session)

namespace TransformSet

/-- A set without signals. -/
def empty (limits : Limits) : TransformSet := ⟨limits, NameMap.empty⟩

/-- Signals that failed, with their errors, in the order in which they were tried. -/
abbrev Failures := List (String × Error)

/-- The signal of a name. -/
def find? (s : TransformSet) (name : String) : Option (Transform Session) :=
  s.transforms.find? name

/-- The definitions of all signals. -/
def definitions (s : TransformSet) : NameMap Definition := s.transforms.mapValues (·.definition)

/-- Removes a signal together with its outputs. -/
def remove (s : TransformSet) (r : Registry) (name : String) : TransformSet × Registry :=
  match s.find? name with
  | some t => ({ s with transforms := s.transforms.erase name }, t.remove r)
  | none => (s, r)

/-- Runs the first pass of a compiled signal. It joins the set only if the pass succeeds. -/
def enroll (s : TransformSet) (r : Registry) (t : Transform Session) :
    TransformSet × Registry × Attempt (Transform Session) :=
  let name := t.definition.name
  let (t, r) := t.register r
  match t.update r with
  | (t, r, .done _) => ({ s with transforms := s.transforms.insert name t }, r, .done t)
  | (_, r, .failed e) => (s, r, .failed (.context ("Failed to evaluate '" ++ name ++ "'") e))
  | (_, r, .abort why) => (s, r, .abort why)

/-- Compiles a definition, puts it in the place of an older one of its name, and runs the first
pass. A definition that does not compile changes nothing. -/
def add (s : TransformSet) (r : Registry) (d : Definition) :
    TransformSet × Registry × Attempt (Transform Session) :=
  match (Transform.compile d (Session.new s.limits)).2 with
  | .abort why => (s, r, .abort why)
  | .failed e => (s, r, .failed (.context ("Failed to compile '" ++ d.name ++ "'") e))
  | .done t =>
    let (s, r) := s.remove r d.name
    s.enroll r t

/-- Adds definitions one after another; each that fails is left out. -/
def addAll : TransformSet → Registry → List Definition → TransformSet × Registry × Attempt Failures
  | s, r, [] => (s, r, .done [])
  | s, r, d :: ds =>
    match s.add r d with
    | (s, r, .abort why) => (s, r, .abort why)
    | (s, r, .failed e) =>
      let (s, r, rest) := addAll s r ds
      (s, r, rest.map ((d.name, e) :: ·))
    | (s, r, .done _) => addAll s r ds

/-- Adds the definitions of a document, in the order of their names. A text that cannot be read
changes nothing. -/
def loadDocument (s : TransformSet) (r : Registry) (text : String) :
    TransformSet × Registry × Attempt Failures :=
  match Document.readDefinitions text with
  | .error e => (s, r, .failed e)
  | .ok definitions => s.addAll r definitions.values

/-- The document of all definitions. -/
def toDocument (s : TransformSet) : String := Document.writeDefinitions s.definitions

/-- Runs a pass over the signals of some names. One that fails stays in the set. -/
def passOver (pass : Transform Session → Registry → Transform Session × Registry × Attempt Nat) :
    TransformSet → Registry → List String → TransformSet × Registry × Attempt Failures
  | s, r, [] => (s, r, .done [])
  | s, r, name :: names =>
    match s.find? name with
    | none => passOver pass s r names
    | some t =>
      let (t, r, outcome) := pass t r
      let s := { s with transforms := s.transforms.insert name t }
      match outcome with
      | .abort why => (s, r, .abort why)
      | .failed e =>
        let (s, r, rest) := passOver pass s r names
        (s, r, rest.map ((name, e) :: ·))
      | .done _ => passOver pass s r names

/-- Evaluates what is new for every signal, in the order of their names. -/
def updateAll (s : TransformSet) (r : Registry) : TransformSet × Registry × Attempt Failures :=
  passOver Transform.update s r s.transforms.names

/-- Evaluates every signal from the start, in the order of their names. -/
def rebuildAll (s : TransformSet) (r : Registry) : TransformSet × Registry × Attempt Failures :=
  passOver Transform.rebuild s r s.transforms.names

end TransformSet

end DerivedSignal
