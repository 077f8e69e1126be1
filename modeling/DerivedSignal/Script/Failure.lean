import DerivedSignal.Script.Value
import DerivedSignal.Script.Token

namespace DerivedSignal

namespace Script

/-- The cause of a failure. -/
inductive Fault where
  | unknownName (name : String)
  | unknownFunction (name : String) (arguments : List Value)
  | wrongType (actual expected : String)
  | arrayBounds (index : Int) (size : Nat)
  | stringBounds (index : Int) (size : Nat)
  | bitBounds (index : Int)
  | noIndexer (container key : Value) (assigned : Option Value)
  | noGetter (property type : String)
  | noSetter (property type : String)
  | arithmetic (text : String)
  | constant (name : String)
  | constantMethod (method : String)
  | notIterable
  | raised (value : Value)
  | tooLarge (subject : String)
  | stackOverflow
  | tooManyOperations

namespace Fault

/-- A raised text. -/
def ofText (s : String) : Fault := raised (.string s)

/-- What is out of bounds of a sequence. -/
def boundsText (subject one many : String) (index : Int) (size : Nat) : String :=
  subject ++ " index " ++ toString index ++ " out of bounds: " ++
    (if size = 0 then many ++ " is empty"
      else if size = 1 then "only 1 " ++ one ++ " in " ++ many
      else "only " ++ toString size ++ " " ++ one ++ "s in " ++ many)

/-- The signature of a call that no function matches. -/
def signature (name : String) (arguments : List Value) : String :=
  name ++ " (" ++ ", ".intercalate (arguments.map Value.signatureName) ++ ")"

/-- The wording of a fault. -/
def text : Fault → String
  | unknownName name => "Variable not found: " ++ name
  | unknownFunction name arguments => "Function not found: " ++ signature name arguments
  | wrongType actual expected =>
    "Data type incorrect: " ++ actual ++ " (expecting " ++ expected ++ ")"
  | arrayBounds index size => boundsText "Array" "element" "array" index size
  | stringBounds index size => boundsText "String" "character" "string" index size
  | bitBounds index =>
    "Bit-field index " ++ toString index ++ " out of bounds: only 64 bits in bit-field"
  | noIndexer container key assigned =>
    "Indexer unavailable: " ++ container.typeName ++ " [" ++ key.typeName ++ "]" ++
      (match assigned with
        | some v => " = " ++ v.typeName
        | none => "")
  | noGetter property type =>
    "Unknown property '" ++ property ++ "' - a getter is not registered for type '" ++ type ++ "'"
  | noSetter property type =>
    "Unknown property '" ++ property ++ "' - a setter is not registered for type '" ++ type ++ "'"
  | arithmetic text => text
  | constant name => "Cannot modify constant " ++ name
  | constantMethod method => "Non-pure method '" ++ method ++ "' cannot be called on constant"
  | notIterable => "For loop expects iterable type"
  | raised value => if value.text = "" then "Runtime error" else "Runtime error: " ++ value.text
  | tooLarge subject => subject ++ " too large"
  | stackOverflow => "Stack overflow"
  | tooManyOperations => "Too many operations"

/-- Whether a script cannot catch the fault. -/
def fatal : Fault → Bool
  | tooLarge _ | stackOverflow | tooManyOperations => true
  | _ => false

/-- The name under which a handler sees the fault. -/
def kind : Fault → String
  | unknownName _ => "ErrorVariableNotFound"
  | unknownFunction _ _ => "ErrorFunctionNotFound"
  | wrongType _ _ => "ErrorMismatchDataType"
  | arrayBounds _ _ => "ErrorArrayBounds"
  | stringBounds _ _ => "ErrorStringBounds"
  | bitBounds _ => "ErrorBitFieldBounds"
  | noIndexer _ _ _ => "ErrorIndexingType"
  | noGetter _ _ | noSetter _ _ => "ErrorDotExpr"
  | arithmetic _ => "ErrorArithmetic"
  | constant _ => "ErrorAssignmentToConstant"
  | constantMethod _ => "ErrorNonPureMethodCallOnConstant"
  | notIterable => "ErrorFor"
  | raised _ => "ErrorRuntime"
  | tooLarge _ => "ErrorDataTooLarge"
  | stackOverflow => "ErrorStackOverflow"
  | tooManyOperations => "ErrorTooManyOperations"

/-- What else a handler sees of the fault. -/
def details : Fault → List (String × Value)
  | unknownName name | constant name => [("variable", .string name)]
  | unknownFunction name arguments => [("function", .string (signature name arguments))]
  | wrongType actual expected => [("requested", .string expected), ("actual", .string actual)]
  | arrayBounds index size | stringBounds index size =>
    [("length", .int size), ("index", .int index)]
  | bitBounds index => [("length", .int 64), ("index", .int index)]
  | noIndexer container key _ =>
    [("type", .string (container.typeName ++ " [" ++ key.typeName ++ "]"))]
  | constantMethod method => [("function", .string method)]
  | _ => []

end Fault

/-- A failure: its cause, its place, and the calls it passed through from the inside out. -/
structure Failure where
  fault : Fault
  place : Position
  calls : List (String × Position)

namespace Failure

/-- The wording of a call that a failure passed through. -/
def callText (call : String × Position) : String :=
  "\nin call to function '" ++ call.1 ++ "'" ++ call.2.note

/-- The wording of a failure. -/
def text (f : Failure) : String :=
  f.fault.text ++ f.place.note ++ String.join (f.calls.map callText)

/-- The failure after it left a call. A fatal one only moves to the place of the call. -/
def through (f : Failure) (function : String) (place : Position) : Failure :=
  if f.fault.fatal then { f with place }
  else { f with calls := f.calls ++ [(function, place)] }

/-- The place where a failure was last seen. -/
def lastPlace (f : Failure) : Position := (f.calls.getLast?.map (·.2)).getD f.place

/-- The failure, last seen at another place. -/
def moved (f : Failure) (place : Position) : Failure :=
  match f.calls.getLast? with
  | some (function, _) => { f with calls := f.calls.dropLast ++ [(function, place)] }
  | none => { f with place }

/-- What a handler sees of a failure: a raised value, or a map that describes the failure. -/
def caught (f : Failure) : Value :=
  match f.fault with
  | .raised v => v
  | fault =>
    let (kind, message, details) := match f.calls.getLast? with
      | none => (fault.kind, fault.text, fault.details)
      | some (function, _) =>
        ("ErrorInFunctionCall",
          fault.text ++ f.place.note ++ String.join (f.calls.dropLast.map callText) ++
            "\nin call to function '" ++ function ++ "'",
          [("function", .string function), ("source", .string "")])
    let entries := [("error", .string kind), ("message", .string message),
      ("line", .int f.lastPlace.line), ("position", .int f.lastPlace.column)] ++ details
    .ofMap (NameMap.ofList entries)

end Failure

/-- Why an evaluation stops before its end. -/
inductive Interrupt where
  /-- It failed. -/
  | failure (f : Failure)
  /-- A loop is left with a value. -/
  | leave (value : Value)
  /-- The rest of a loop body is skipped. -/
  | proceed
  /-- A function or script gives back a value. -/
  | giveBack (value : Value)
  /-- A host function was called outside its domain, which ends the whole program. -/
  | abort (function : String) (arguments : List Value)
  /-- No fuel is left; after a whole run, no fuel is enough. -/
  | exhausted

end Script

end DerivedSignal
