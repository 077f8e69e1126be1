import DerivedSignal.Number.Text

namespace DerivedSignal

/-- A failure of an operation, with the context it passed through on its way up. -/
inductive Error where
  /-- A channel reference in an expression is malformed. -/
  | malformed (message : String)
  /-- Preamble or expression do not compile or give no usable result. -/
  | compile (message : String)
  /-- An auxiliary channel is not in the registry. -/
  | missingChannel (name : String)
  /-- A sample's result does not have the shape fixed when the definition was compiled. -/
  | shapeMismatch (name : String) (x : Float) (expected actual : String)
  /-- The script failed while a sample was evaluated. -/
  | script (message : String)
  /-- A document cannot be read. -/
  | document (line : Nat) (message : String)
  /-- A configuration cannot be read or written. -/
  | config (message : String)
  /-- The file system refused. -/
  | io (message : String)
  /-- A document cannot be written. -/
  | serialization (message : String)
  /-- What was being attempted when the error arose. -/
  | context (attempt : String) (source : Error)
  deriving DecidableEq

namespace Error

/-- The wording of an error. -/
def message : Error → String
  | malformed m => "Syntax error: " ++ m
  | compile m => "Compile error: " ++ m
  | missingChannel name => "Invalid channel name: '" ++ name ++ "' not found"
  | shapeMismatch name x expected actual =>
    "Shape mismatch in '" ++ name ++ "' at x = " ++ NumberText.plain x ++ ": expected " ++ expected
      ++ ", got " ++ actual
  | script m => "Script error: " ++ m
  | document line m => "Failed to parse document, error " ++ m ++ " at line " ++ toString line
  | config m => "Configuration error: " ++ m
  | io m => "IO error: " ++ m
  | serialization m => "Serialization error: " ++ m
  | context attempt source => attempt ++ ": " ++ source.message

/-- The error inside all context. -/
def root : Error → Error
  | context _ source => source.root
  | e => e

/-- The texts of what lies beneath an error, outermost first; a refusal of the file system lies
beneath the error that carries it. -/
def causes : Error → List String
  | context _ source => source.message :: source.causes
  | io m => [m]
  | _ => []

end Error

end DerivedSignal
