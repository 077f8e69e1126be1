import DerivedSignal.Config
import DerivedSignal.Dialogue
import DerivedSignal.Text.Quoted
import DerivedSignal.TransformSet

namespace DerivedSignal

namespace Storage

/-- The content of a file, or the refusal as an error. -/
def readFile (path : String) : Dialogue (Except Error String) := do
  match ← Dialogue.readText path with
  | .ok text => return .ok text
  | .error e => return .error (.io e.message)

/-- Writes a file. -/
def writeFile (path text : String) : Dialogue (Except Error Unit) := do
  match ← Dialogue.writeText path text with
  | .ok () => return .ok ()
  | .error e => return .error (.io e.message)

/-- Reads the definitions of a file. -/
def loadDefinitions (path : String) : Dialogue (Except Error (NameMap Definition)) := do
  return (← readFile path).bind Document.readDefinitions

/-- Writes definitions to a file. -/
def saveDefinitions (path : String) (m : NameMap Definition) : Dialogue (Except Error Unit) :=
  writeFile path (Document.writeDefinitions m)

/-- Adds the definitions of a file to a set. -/
def loadSet (path : String) (s : TransformSet) (r : Registry) :
    Dialogue (TransformSet × Registry × Attempt TransformSet.Failures) := do
  match ← readFile path with
  | .ok text => return s.loadDocument r text
  | .error e => return (s, r, .failed e)

/-- Writes the definitions of a set to a file. -/
def saveSet (path : String) (s : TransformSet) : Dialogue (Except Error Unit) :=
  saveDefinitions path s.definitions

/-- Reads a configuration. -/
def loadConfig (path : String) : Dialogue (Except Error Config) := do
  match ← Dialogue.readText path with
  | .error e =>
    return .error (.config ("Failed to read config file " ++ Text.quotedPath path ++ ": " ++ e.message))
  | .ok text =>
    match Config.parse? text with
    | some c => return .ok c
    | none =>
      return .error (.config ("Failed to parse config file " ++ Text.quotedPath path ++ ": invalid"))

/-- Reads a configuration, and takes the standard one if that fails. -/
def loadConfigD (path : String) : Dialogue Config := do
  match ← loadConfig path with
  | .ok c => return c
  | .error _ => return {}

/-- The parts of a path but for empty ones and dots at its end. The first part stays: it is the root, or a dot that
counts. -/
def trimParts : List String → List String
  | [] => []
  | first :: rest => first :: (rest.reverse.dropWhile fun part => part = "" || part = ".").reverse

/-- The path of the directory that a file is in; empty if there is no directory on the way to it. -/
def parentOf (path : String) : String :=
  match trimParts (trimParts (pathParts path)).dropLast with
  | [""] => "/"
  | parts => "/".intercalate parts

/-- Writes a configuration; the directories on the way are created. -/
def saveConfig (path : String) (c : Config) : Dialogue (Except Error Unit) := do
  match ← Dialogue.createDirectories (parentOf path) with
  | .error e => return .error (.config ("Failed to create config directory: " ++ e.message))
  | .ok () =>
    match c.print? with
    | none =>
      return .error (.config "Failed to serialize config: out-of-range value for u64 type")
    | some text =>
      match ← Dialogue.writeText path text with
      | .ok () => return .ok ()
      | .error e =>
        return .error
          (.config ("Failed to write config file " ++ Text.quotedPath path ++ ": " ++ e.message))

end Storage

end DerivedSignal
