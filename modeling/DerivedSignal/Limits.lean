namespace DerivedSignal

/-- How much a script may use. Zero stands for no limit, except for the depth of calls. -/
structure Limits where
  /-- Nesting of expressions outside functions. -/
  maxExprDepth : Nat := 64
  /-- Nesting of expressions inside functions. -/
  maxFunctionExprDepth : Nat := 64
  /-- Depth of function calls. -/
  maxCallLevels : Nat := 32
  /-- Steps of one evaluation. -/
  maxOperations : Nat := 50000
  /-- Length of a text in bytes. -/
  maxStringSize : Nat := 10000
  /-- Elements of an array. -/
  maxArraySize : Nat := 1000
  /-- Entries of an object map. -/
  maxMapSize : Nat := 1000
  deriving DecidableEq, Repr

namespace Limits

instance : Inhabited Limits := ⟨{}⟩

/-- Whether a size goes beyond a limit. -/
def exceeds (limit size : Nat) : Bool := limit ≠ 0 && size > limit

end Limits

end DerivedSignal
