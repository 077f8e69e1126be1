import DerivedSignal.Config
import DerivedSignal.Definition
import DerivedSignal.Json.Printer
import DerivedSignal.Json.Reader
import DerivedSignal.Registry

namespace DerivedSignal

namespace Exchange

open Json (Value)

/-- The field of a name among the members of an object, which has it at most once. -/
def field? (members : List (String × Value)) (name : String) : Option (Option Value) :=
  match members.filter fun m => m.1 == name with
  | [] => some none
  | [m] => some (some m.2)
  | _ => none

/-- The fields of a record in the order of their names. -/
def fields? (names : List String) : Value → Option (List (Option Value))
  | .object members => do
    let members ← members.mapM fun m => m.1.map fun key => (key, m.2)
    names.mapM (field? members)
  | .array items =>
    if items.length ≤ names.length then some (names.mapIdx fun i _ => items[i]?) else none
  | _ => none

/-- The fields of a record that must have all of them. -/
def allFields? (names : List String) (v : Value) : Option (List Value) :=
  (fields? names v).bind fun fields => fields.mapM id

/-- A text. -/
def text? : Value → Option String
  | .string s => s
  | _ => none

/-- A double. -/
def float? : Value → Option Float
  | .number n => n.toFloat?
  | _ => none

/-- A natural number below `2^64`. -/
def nat? : Value → Option Nat
  | .number n => n.toNat?
  | _ => none

/-- A field, or its standard if it is not given. -/
def fieldD {α : Type} (standard : α) (read : Value → Option α) : Option Value → Option α
  | none => some standard
  | some v => read v

/-- The fields of a definition. -/
def definitionNames : List String := ["name", "linked_series", "global_vars", "expression"]

/-- Reads a definition. -/
def definition? (v : Value) : Option Definition := do
  match ← (← allFields? definitionNames v).mapM text? with
  | [name, linked, globals, expression] => some ⟨name, linked, globals, expression⟩
  | _ => none

/-- Writes a definition. -/
def ofDefinition (d : Definition) : Value :=
  Value.ofMembers (definitionNames.zip
    ([d.name, d.linked, d.globals, d.expression].map Value.ofString))

/-- The fields of a snippet. -/
def snippetNames : List String := ["name", "global_vars", "equation"]

/-- Reads a snippet. -/
def snippet? (v : Value) : Option Snippet := do
  match ← (← allFields? snippetNames v).mapM text? with
  | [name, globals, equation] => some ⟨name, globals, equation⟩
  | _ => none

/-- Writes a snippet. -/
def ofSnippet (s : Snippet) : Value :=
  Value.ofMembers (snippetNames.zip ([s.name, s.globals, s.equation].map Value.ofString))

/-- Reads a point. -/
def point? (v : Value) : Option Point := do
  match ← (← allFields? ["x", "y"] v).mapM float? with
  | [x, y] => some ⟨x, y⟩
  | _ => none

/-- Writes a point. -/
def ofPoint (p : Point) : Value :=
  Value.ofMembers [("x", Value.ofFloat p.x), ("y", Value.ofFloat p.y)]

/-- Reads limits. -/
def limits? (v : Value) : Option Limits := do
  let given ← fields? Config.limitNames v
  let values ← (given.zip (Config.limitValues {})).mapM fun g => fieldD g.2 nat? g.1
  Config.limitsOf? values

/-- Writes limits. -/
def ofLimits (l : Limits) : Value :=
  Value.ofMembers (Config.limitNames.zip ((Config.limitValues l).map Value.ofNat))

/-- Reads the directory of the log, which may be null. -/
def directory? : Value → Option (Option String)
  | .null => some none
  | v => (text? v).map some

/-- Reads filter and directory of the log. -/
def logging? (v : Value) : Option (String × Option String) := do
  match ← fields? Config.loggingNames v with
  | [filter, directory] =>
    return (← fieldD ({} : Config).filter text? filter, ← fieldD none directory? directory)
  | _ => none

/-- Reads a configuration. -/
def config? (v : Value) : Option Config := do
  match ← fields? ["limits", "logging"] v with
  | [limits, logging] =>
    let limits ← fieldD {} limits? limits
    let (filter, directory) ← fieldD (({} : Config).filter, none) logging? logging
    return ⟨limits, filter, directory⟩
  | _ => none

/-- Writes a configuration. -/
def ofConfig (c : Config) : Value :=
  let directory := match c.directory with
    | some d => Value.ofString d
    | none => .null
  Value.ofMembers [("limits", ofLimits c.limits),
    ("logging", Value.ofMembers (Config.loggingNames.zip [Value.ofString c.filter, directory]))]

/-- Reads a point of a snapshot: a pair of doubles. -/
def pair? : Value → Option Point
  | .array [x, y] => (float? x).bind fun x => (float? y).map fun y => ⟨x, y⟩
  | _ => none

/-- Reads the points of a series. -/
def pairs? : Value → Option (List Point)
  | .array items => items.mapM pair?
  | _ => none

/-- Reads a snapshot: points under the names of series. Of several entries of one name the last one
counts. -/
def snapshot? : Value → Option Snapshot
  | .object members => do
    let entries ← members.mapM fun m =>
      m.1.bind fun name => (pairs? m.2).map fun points => (name, points)
    return NameMap.ofList entries
  | _ => none

/-- Writes a snapshot. -/
def ofSnapshot (s : Snapshot) : Value :=
  Value.ofMembers (s.entries.map fun e =>
    (e.1, .array (e.2.map fun p => .array [Value.ofFloat p.x, Value.ofFloat p.y])))

end Exchange

end DerivedSignal
