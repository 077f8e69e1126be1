import DerivedSignal.Error

namespace DerivedSignal

/-- The result of an expression for one sample. -/
inductive Reading where
  /-- A number, one output. -/
  | number (y : Float)
  /-- An array, one output per element; an element that is no number reads as NaN. -/
  | array (items : List Float)
  /-- An object, one output per key. -/
  | object (entries : List (String × Float))
  /-- A value of another type. -/
  | unsupported (typeName : String)
  deriving DecidableEq

namespace Reading

def isNumber : Reading → Bool
  | number _ => true
  | _ => false

def isArray : Reading → Bool
  | array _ => true
  | _ => false

def isObject : Reading → Bool
  | object _ => true
  | _ => false

/-- A short description for error texts. -/
def describe : Reading → String
  | number _ => "a number"
  | array items => "an array of length " ++ toString items.length
  | object entries => "an object with keys [" ++ ", ".intercalate (entries.map (·.1)) ++ "]"
  | unsupported typeName => "a value of type '" ++ typeName ++ "'"

end Reading

/-- The layout of an expression's result. -/
inductive OutputShape where
  /-- One output, named as the signal. -/
  | scalar
  /-- One output per index. -/
  | vector (size : Nat)
  /-- One output per key, in the given order. -/
  | keyed (keys : List String)
  deriving DecidableEq, Repr

namespace OutputShape

/-- The shape of a result. -/
def ofReading : Reading → Except Error OutputShape
  | .number _ => .ok .scalar
  | .array items => .ok (.vector items.length)
  | .object entries => .ok (.keyed (entries.map (·.1)))
  | .unsupported typeName =>
    .error (.compile ("expression must return a number, an array or an object, got "
      ++ (Reading.unsupported typeName).describe))

/-- The number of outputs. -/
def arity : OutputShape → Nat
  | scalar => 1
  | vector size => size
  | keyed keys => keys.length

/-- The names of the outputs of a signal: its own name, or that name with an index after a point
or a key after a slash. -/
def outputNames (base : String) : OutputShape → List String
  | scalar => [base]
  | vector size => (List.range size).map fun i => base ++ "." ++ toString i
  | keyed keys => keys.map fun k => base ++ "/" ++ k

theorem length_outputNames (base : String) (shape : OutputShape) :
    (shape.outputNames base).length = shape.arity := by
  cases shape <;> simp [outputNames, arity]

/-- The values of a result of this shape, or what the result is instead. -/
def extract (shape : OutputShape) (value : Reading) : Except String (List Float) :=
  match shape, value with
  | scalar, .number y => .ok [y]
  | vector size, .array items => if items.length = size then .ok items else .error value.describe
  | keyed keys, .object entries =>
    if entries.map (·.1) = keys then .ok (entries.map (·.2)) else .error value.describe
  | _, _ => .error value.describe

theorem length_of_extract {shape : OutputShape} {value : Reading} {ys : List Float}
    (h : shape.extract value = .ok ys) : ys.length = shape.arity := by
  unfold extract at h
  split at h
  next => cases h; rfl
  next =>
    split at h
    next hn => cases h; exact hn
    next => cases h
  next =>
    split at h
    next hk =>
      cases h
      simp [arity, ← hk]
    next => cases h
  next => cases h

/-- A short description for error texts. -/
def describe : OutputShape → String
  | scalar => "a number"
  | vector size => "an array of length " ++ toString size
  | keyed keys => "an object with keys [" ++ ", ".intercalate keys ++ "]"

end OutputShape

end DerivedSignal
