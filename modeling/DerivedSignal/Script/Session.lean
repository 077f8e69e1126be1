import DerivedSignal.Attempt
import DerivedSignal.Script.Eval
import DerivedSignal.Script.Parser
import DerivedSignal.Script.Simplify
import DerivedSignal.Template

namespace DerivedSignal

/-- A session. `saved` holds the global variables of the last checkpoint. -/
structure Session where
  limits : Limits
  globals : List Script.Slot
  preamble : Option Script.Program
  expression : Option Script.Program
  saved : Option (List Script.Slot)

namespace Session

open Script

/-- A session without preamble and expression. -/
def new (limits : Limits) : Session := ⟨limits, [], none, none, none⟩

/-- The functions of a preamble. -/
def preambleFunctions (s : Session) : List Function :=
  match s.preamble with
  | some p => p.functions
  | none => []

/-- The functions of the first list, and those of the second that they do not replace. -/
def override (news olds : List Function) : List Function :=
  news ++ olds.filter fun old =>
    !(news.any fun f => f.name == old.name && f.parameters.length == old.parameters.length)

/-- Runs a preamble on no variables. -/
def runPreamble (limits : Limits) (p : Program) : Attempt (List Slot) :=
  match execute limits p.functions p.body [] with
  | (.ok _, globals) => .done globals
  | (.error (.failure f), _) => .failed (.compile ("global variables: " ++ f.text))
  | (.error (.abort _ _), _) => .abort .panic
  | (.error .exhausted, _) => .abort .endless
  -- The parser sees to it that a loop is left only from within, and `execute` takes what is given back.
  | (.error (.leave _), globals) | (.error .proceed, globals) | (.error (.giveBack _), globals) =>
    .done globals

/-- Loads a preamble and runs it. Nothing changes unless it ends well. -/
def loadGlobals (s : Session) (source : String) : Session × Attempt Unit :=
  match Program.parse? s.limits source with
  | none => (s, .failed (.compile "global variables: syntax error"))
  | some p =>
    let p := p.simplify []
    match runPreamble s.limits p with
    | .abort why => (s, .abort why)
    | .failed e => (s, .failed e)
    | .done globals => ({ s with globals, preamble := some p }, .done ())

/-- The constants that an expression sees when it is bound. -/
def known (globals : List Slot) : Known :=
  globals.map fun slot => (slot.name, if slot.constant then some slot.value else none)

/-- Binds an expression. -/
def bind (s : Session) (source : String) : Session × Attempt Unit :=
  match Program.parse? s.limits source with
  | none => (s, .failed (.compile "expression: syntax error"))
  | some p => ({ s with expression := some (p.simplify (known s.globals)) }, .done ())

/-- Runs the preamble again, on no variables. -/
def reset (s : Session) : Session × Attempt Unit :=
  match s.preamble with
  | none => ({ s with globals := [] }, .done ())
  | some p =>
    match runPreamble s.limits p with
    | .abort why => (s, .abort why)
    | .failed e => (s, .failed e)
    | .done globals => ({ s with globals }, .done ())

/-- Remembers the global variables. -/
def checkpoint (s : Session) : Session := { s with saved := some s.globals }

/-- Returns the global variables to the last checkpoint, which is used up. -/
def restore (s : Session) : Session :=
  match s.saved with
  | some globals => { s with globals, saved := none }
  | none => s

/-- The variables of a call: the sample and its channels, on top of the global ones. -/
def sampleScope (globals : List Slot) (time value : Float) (channels : List Float) : List Slot :=
  ⟨Template.channelsVariable, .array (channels.map Value.float), false⟩ ::
    ⟨Template.valueVariable, .float value, false⟩ ::
    ⟨Template.timeVariable, .float time, false⟩ :: globals

/-- An expression together with the functions of a preamble. -/
def merge (functions : List Function) (p : Program) : Program := ⟨p.body, override p.functions functions⟩

/-- Evaluates a program for a sample. What it assigns to global variables stays, also if it fails. -/
def evaluate (s : Session) (p : Program) (time value : Float) (channels : List Float) :
    Session × Attempt Reading :=
  let (result, scope) := execute s.limits p.functions p.body (sampleScope s.globals time value channels)
  let s := { s with globals := scope.drop (scope.length - s.globals.length) }
  match result with
  | .ok v => (s, .done v.toReading)
  | .error (.failure f) => (s, .failed (.script f.text))
  | .error (.abort _ _) => (s, .abort .panic)
  | .error .exhausted => (s, .abort .endless)
  -- The parser sees to it that a loop is left only from within, and `execute` takes what is given back.
  | .error (.leave _) | .error .proceed | .error (.giveBack _) =>
    (s, .failed (.script "no result"))

/-- Evaluates the expression for a sample. -/
def call (s : Session) (time value : Float) (channels : List Float) : Session × Attempt Reading :=
  match s.expression with
  | none => (s, .failed (.script "no expression bound"))
  | some p => s.evaluate (merge s.preambleFunctions p) time value channels

end Session

end DerivedSignal
