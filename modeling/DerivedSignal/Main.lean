import DerivedSignal.CommandLine

namespace DerivedSignal

namespace Program

/-- The reason behind an error of the file system. -/
def faultOf : IO.Error → FileFault
  | .noFileOrDirectory .. => .missing
  | .alreadyExists .. => .occupied
  | .inappropriateType _ code _ => if code = 21 then .isDirectory else .notDirectory
  | e => .other (toString e)

/-- The result of an access, or the reason why there is none. -/
def attempt {α : Type} (access : IO α) : IO (Except FileFault α) := do
  try
    return .ok (← access)
  catch e =>
    return .error (faultOf e)

/-- Holds a dialogue with the file system. -/
def hold {α : Type} : Dialogue α → IO α
  | .done a => return a
  | .read path next => do
    let content ← attempt (IO.FS.readBinFile path)
    hold (next (content.bind FileFault.decode))
  | .write path text next => do hold (next (← attempt (IO.FS.writeFile path text)))
  | .create path next => do hold (next (← attempt (IO.FS.createDirAll path)))

end Program

end DerivedSignal

/-- Runs the program and ends with its status. -/
def main (arguments : List String) : IO UInt32 := do
  let home := (← IO.getEnv "HOME").getD ""
  let outcome ← DerivedSignal.Program.hold (DerivedSignal.CommandLine.run home arguments)
  IO.print outcome.output
  IO.eprint outcome.errors
  -- A run without a status does not come here.
  return (outcome.status.getD 0).toUInt32
