import DerivedSignal.Limits
import DerivedSignal.Number.Power
import DerivedSignal.Toml.Reader
import DerivedSignal.Toml.Writer

namespace DerivedSignal

/-- The configuration. Without a directory nothing is logged to a file. -/
structure Config where
  limits : Limits := {}
  filter : String := "info,datavis_math=debug"
  directory : Option String := none
  deriving DecidableEq, Repr

namespace Config

instance : Inhabited Config := ⟨{}⟩

/-- The name of the configuration file. -/
def fileName : String := "math.toml"

/-- The directory of the configuration file, inside the user's configuration directory. -/
def directoryName : String := "dev.hxyulin.datavis-math"

/-- Where the configuration of a user is, given the home directory. -/
def standardPath (home : String) : String :=
  home ++ "/.config/" ++ directoryName ++ "/" ++ fileName

/-- The fields of a record in a document: by name in a table, by position in an array. A date or
time gives none. -/
def fields? : List String → Toml.Value → Option (List (Option Toml.Value))
  | names, .table members => some (names.map fun name => members.lookup name)
  | names, .array items => some (names.mapIdx fun i _ => items[i]?)
  | names, .moment _ => some (names.map fun _ => none)
  | _, _ => none

/-- A limit, or its standard if it is not given. -/
def limit? (standard : Nat) : Option Toml.Value → Option Nat
  | none => some standard
  | some (.integer n) => if n < 0 then none else some n.toNat
  | some _ => none

/-- A text, or its standard if it is not given. -/
def text? (standard : String) : Option Toml.Value → Option String
  | none => some standard
  | some (.string s) => some s
  | some _ => none

/-- The names of the limits, in their order. -/
def limitNames : List String :=
  ["max_expr_depth", "max_function_expr_depth", "max_call_levels", "max_operations",
   "max_string_size", "max_array_size", "max_map_size"]

/-- Limits in the order of their names. -/
def limitValues (l : Limits) : List Nat :=
  [l.maxExprDepth, l.maxFunctionExprDepth, l.maxCallLevels, l.maxOperations, l.maxStringSize,
   l.maxArraySize, l.maxMapSize]

/-- The limits with values in the order of their names. -/
def limitsOf? : List Nat → Option Limits
  | [a, b, c, d, e, f, g] => some ⟨a, b, c, d, e, f, g⟩
  | _ => none

/-- The limits of a document, with the standard for each one that is not given. -/
def readLimits? : Option Toml.Value → Option Limits
  | none => some {}
  | some v => do
    let given ← fields? limitNames v
    let values ← (given.zip (limitValues {})).mapM fun g => limit? g.2 g.1
    limitsOf? values

/-- The names of the settings of the log. -/
def loggingNames : List String := ["filter", "directory"]

/-- Filter and directory of the log, with the standard for what is not given. -/
def readLogging? : Option Toml.Value → Option (String × Option String)
  | none => some (({} : Config).filter, none)
  | some v => do
    match ← fields? loggingNames v with
    | [filter, directory] =>
      let filter ← text? ({} : Config).filter filter
      match directory with
      | none => return (filter, none)
      | some (.string s) => return (filter, some s)
      | some _ => none
    | _ => none

/-- The configuration that a document describes. Unknown keys count for nothing. -/
def parse? (text : String) : Option Config := do
  let members ← Toml.parse? text
  let limits ← readLimits? (members.lookup "limits")
  let (filter, directory) ← readLogging? (members.lookup "logging")
  return ⟨limits, filter, directory⟩

/-- The document of a configuration; nothing if a limit is too great for one. -/
def print? (c : Config) : Option String :=
  if (limitValues c.limits).any fun (n : Nat) => n > greatestInteger then none
  else
    let limits := (limitNames.zip (limitValues c.limits)).map fun l =>
      Toml.assignment l.1 (toString l.2)
    let directory := match c.directory with
      | some d => [Toml.assignment "directory" (Toml.quoted d)]
      | none => []
    some (Toml.headed "limits" limits ++ "\n" ++
      Toml.headed "logging" (Toml.assignment "filter" (Toml.quoted c.filter) :: directory))

end Config

end DerivedSignal
