import DerivedSignal.Arguments
import DerivedSignal.Exchange
import DerivedSignal.StandardSnippets
import DerivedSignal.Storage

namespace DerivedSignal

/-- The end of a run: the exit status and what was printed. A run that goes on for ever has no status. -/
structure Outcome where
  status : Option Nat
  output : String
  errors : String
  deriving DecidableEq, Repr

namespace CommandLine

/-- Joins the lines of a cause under the indentation of its first line. -/
def indented (indentation cause : String) : String :=
  ("\n" ++ indentation).intercalate (cause.splitOn "\n")

/-- A cause with its number. -/
def numberedCause (n : Nat) (cause : String) : String :=
  let number := toString n
  String.ofList (List.replicate (5 - number.length) ' ') ++ number ++ ": " ++
    indented "       " cause

/-- The report of a failure: what failed, and the causes beneath it, which are numbered if there are
several. -/
def report (failure : String) (causes : List String) : String :=
  "Error: " ++ failure ++ "\n" ++
    match causes with
    | [] => ""
    | [cause] => "\nCaused by:\n    " ++ indented "    " cause ++ "\n"
    | causes =>
      "\nCaused by:\n" ++ String.join ((causes.mapIdx numberedCause).map (· ++ "\n"))

/-- The report of a failure that comes from an error. -/
def reportError (failure : String) (e : Error) : String := report failure (e.message :: e.causes)

/-- The end of a run that failed. -/
def failed (errors : String) : Outcome := ⟨some 1, "", errors⟩

/-- A run that a script brought down or keeps from its end; what was printed stays. -/
def broken (why : Breakdown) (output : String) : Outcome :=
  match why with
  | .panic => ⟨some 101, output, ""⟩
  | .endless => ⟨none, output, ""⟩

/-- How to call the program. -/
def usage : String :=
  "Usage: datavis-math [OPTIONS] <COMMAND>\n\nCommands:\n  check <FILE>\n" ++
    "  eval --definitions <FILE> --data <FILE> [--output <FILE>] [--all]\n" ++
    "  snippets [--export <FILE>]\n\nOptions:\n  -c, --config <FILE>\n  -v, --verbose\n"

/-- What is said about a signal that compiles. -/
def describe (t : Transform Session) : String :=
  t.definition.name ++ " (linked: " ++ t.definition.linked ++ ") -> " ++ ", ".intercalate t.outputs
    ++ "\n" ++
    (if t.slotted.channels.isEmpty then ""
    else "    channels: " ++ ", ".intercalate t.slotted.channels ++ "\n")

/-- Compiles definitions one after another. `output` is what was printed, and `failures` the number
of those that did not compile. -/
def checkAll (limits : Limits) (output : String) (failures : Nat) : List Definition → Outcome
  | [] =>
    if failures = 0 then ⟨some 0, output, ""⟩
    else ⟨some 1, output, report (toString failures ++ " definition(s) failed to compile") []⟩
  | d :: ds =>
    match (Transform.compile d (Session.new limits)).2 with
    | .abort why => broken why output
    | .failed e => checkAll limits (output ++ d.name ++ ": " ++ e.message ++ "\n") (failures + 1) ds
    | .done t => checkAll limits (output ++ describe t) failures ds

/-- The failure to load definitions. -/
def loadFailure (path : String) (e : Error) : Outcome :=
  failed (reportError ("Failed to load definitions from " ++ Text.quotedPath path) e)

/-- Compiles every definition of a document. -/
def check (path : String) (c : Config) : Dialogue Outcome := do
  match ← Storage.loadDefinitions path with
  | .error e => return loadFailure path e
  | .ok definitions => return checkAll c.limits "" 0 definitions.values

/-- The names of all outputs of a set. -/
def outputsOf (s : TransformSet) : List String := s.transforms.values.flatMap Transform.outputs

/-- The results of an evaluation as a document. -/
def results (s : TransformSet) (r : Registry) (withInputs : Bool) : String :=
  let snapshot := if withInputs then Registry.snapshot r else Registry.snapshotOf r (outputsOf s)
  (Exchange.ofSnapshot snapshot).pretty 0

/-- The end of an evaluation: the failed definitions are reported. -/
def conclude (failures : TransformSet.Failures) (output : String) : Outcome :=
  let errors := String.join (failures.map fun f => f.1 ++ ": " ++ f.2.message ++ "\n")
  if failures.isEmpty then ⟨some 0, output, errors⟩
  else ⟨some 1, output, errors ++ report (toString failures.length ++ " definition(s) failed") []⟩

/-- Writes results to a file or to the output. -/
def deliver (target : Option String) (failures : TransformSet.Failures) (text : String) :
    Dialogue Outcome := do
  match target with
  | none => return conclude failures (text ++ "\n")
  | some path =>
    match ← Dialogue.writeText path text with
    | .ok () => return conclude failures ""
    | .error e =>
      let errors := String.join (failures.map fun f => f.1 ++ ": " ++ f.2.message ++ "\n")
      return ⟨some 1, "", errors ++
        report ("Failed to write output " ++ Text.quotedPath path) [e.message]⟩

/-- Evaluates the definitions of a document on the series of a data file. -/
def evaluate (definitions data : String) (target : Option String) (withInputs : Bool)
    (c : Config) : Dialogue Outcome := do
  match ← Dialogue.readText data with
  | .error e =>
    return failed (report ("Failed to read data file " ++ Text.quotedPath data) [e.message])
  | .ok text =>
    match (Json.parse? text).bind Exchange.snapshot? with
    | none => return failed (report ("Invalid data file " ++ Text.quotedPath data) ["invalid data"])
    | some snapshot =>
      match ← Storage.loadSet definitions (TransformSet.empty c.limits)
          (Registry.ofSnapshot snapshot) with
      | (_, _, .abort why) => return broken why ""
      | (_, _, .failed e) => return loadFailure definitions e
      | (s, r, .done failures) => deliver target failures (results s r withInputs)

/-- The standard snippets by name. -/
def library : NameMap Snippet :=
  NameMap.ofList (StandardSnippets.all.map fun s => (s.name, s))

/-- Lists the standard snippets or writes them to a document. -/
def snippets (target : Option String) : Dialogue Outcome := do
  match target with
  | none =>
    return ⟨some 0, String.join (library.values.map fun s =>
      s.name ++ ": " ++ Text.trim s.equation ++ "\n"), ""⟩
  | some path =>
    match ← Dialogue.writeText path (Document.writeSnippets library) with
    | .ok () => return ⟨some 0, "", ""⟩
    | .error e => return failed (report ("Failed to write " ++ Text.quotedPath path) [e.message])

/-- Runs a command. -/
def execute (c : Config) : Command → Dialogue Outcome
  | .check path => check path c
  | .evaluate definitions data target withInputs => evaluate definitions data target withInputs c
  | .snippets target => snippets target

/-- Prepares the directory of the log, without which the program does not start. -/
def prepareLog (c : Config) : Dialogue (Except FileFault Unit) :=
  match c.directory with
  | none => return .ok ()
  | some directory => Dialogue.createDirectories directory

/-- Runs the program on its arguments. Without a path for the configuration its standard place
below `home` counts. -/
def run (home : String) (arguments : List String) : Dialogue Outcome := do
  match Request.parse? arguments with
  | none => return ⟨some 2, "", usage⟩
  | some .help => return ⟨some 0, usage, ""⟩
  | some .version => return ⟨some 0, "datavis-math 0.1.0\n", ""⟩
  | some (.run command path) =>
    let c ← Storage.loadConfigD (path.getD (Config.standardPath home))
    match ← prepareLog c with
    | .error _ => return broken .panic ""
    | .ok () => execute c command

end CommandLine

end DerivedSignal
