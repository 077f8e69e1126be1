namespace DerivedSignal

/-- Two to the power of `n`. -/
abbrev twoTo (n : Nat) : Nat := Nat.pow 2 n

/-- Ten to the power of `n`. -/
abbrev tenTo (n : Nat) : Nat := Nat.pow 10 n

/-- The least signed 64-bit integer. -/
def leastInteger : Int := -9223372036854775808

/-- The greatest signed 64-bit integer. -/
def greatestInteger : Int := 9223372036854775807

/-- A signed 64-bit integer, or nothing. -/
def inIntegerRange? (n : Int) : Option Int :=
  if leastInteger ≤ n ∧ n ≤ greatestInteger then some n else none

end DerivedSignal
