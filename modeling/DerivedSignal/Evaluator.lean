import DerivedSignal.Attempt
import DerivedSignal.OutputShape
import DerivedSignal.Script.Session

namespace DerivedSignal

/-- An evaluator holds global variables, which a preamble sets up and calls change. Every operation
gives the evaluator after it, whether it failed or not. -/
class Evaluator (σ : Type) where
  /-- Evaluates a preamble on no variables. -/
  loadGlobals : σ → String → σ × Attempt Unit
  /-- Takes an expression as what `call` evaluates. -/
  bind : σ → String → σ × Attempt Unit
  /-- Drops what calls have changed. -/
  reset : σ → σ × Attempt Unit
  /-- Remembers the global variables. -/
  checkpoint : σ → σ
  /-- Returns the global variables to the last checkpoint. -/
  restore : σ → σ
  /-- Evaluates the expression for one sample and the values of its channels. -/
  call : σ → Float → Float → List Float → σ × Attempt Reading

instance : Evaluator Session where
  loadGlobals := Session.loadGlobals
  bind := Session.bind
  reset := Session.reset
  checkpoint := Session.checkpoint
  restore := Session.restore
  call := Session.call

end DerivedSignal
