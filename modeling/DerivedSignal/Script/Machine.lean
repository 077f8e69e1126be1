import DerivedSignal.Limits
import DerivedSignal.Script.Builtin
import DerivedSignal.Script.Expr

namespace DerivedSignal

namespace Script

/-- A variable. -/
structure Slot where
  name : String
  value : Value
  constant : Bool

instance : Inhabited Slot := ⟨⟨"", .unit, false⟩⟩

/-- The variables in scope, the newest first, and the steps so far. -/
structure Machine where
  scope : List Slot
  steps : Nat

/-- What stays the same while a function runs: the limits, the functions, and the depth of calls. -/
structure Setting where
  limits : Limits
  functions : List Function
  level : Nat

/-- A computation on the machine. What it changed before an interrupt stays changed. -/
abbrev Run := ExceptT Interrupt (StateM Machine)

/-- Fails at a place. -/
def fail {α : Type} (f : Fault) (p : Position) : Run α := throw (.failure ⟨f, p, []⟩)

/-- Counts a step. -/
def tick (c : Setting) (p : Position) : Run Unit := do
  let m ← get
  set { m with steps := m.steps + 1 }
  if Limits.exceeds c.limits.maxOperations (m.steps + 1) then fail .tooManyOperations p

/-- Fails if values of an extent are too large. -/
def checkExtent (c : Setting) (e : Value.Extent) (p : Position) : Run Unit :=
  if Limits.exceeds c.limits.maxStringSize e.bytes then fail (.tooLarge "Length of string") p
  else if Limits.exceeds c.limits.maxArraySize e.elements then
    fail (.tooLarge "Size of array/BLOB") p
  else if Limits.exceeds c.limits.maxMapSize e.entries then
    fail (.tooLarge "Size of object map") p
  else pure ()

/-- Fails if a value is too large. -/
def checkSize (c : Setting) (v : Value) (p : Position) : Run Unit := checkExtent c v.extent p

/-- The index of the newest variable of a name. -/
def slotOf (name : String) (p : Position) : Run Nat := do
  match (← get).scope.findIdx? (fun s => s.name == name) with
  | some i => return i
  | none => fail (.unknownName name) p

/-- A variable. -/
def readSlot (i : Nat) : Run Slot := do return ((← get).scope[i]?).getD default

/-- Changes the value of a variable. -/
def writeSlot (i : Nat) (v : Value) : Run Unit :=
  modify fun m => { m with scope := m.scope.modify i fun s => { s with value := v } }

/-- Puts a variable into scope. -/
def pushSlot (s : Slot) : Run Unit := modify fun m => { m with scope := s :: m.scope }

/-- Declares a variable; one of the same name that stands above the `base` oldest ones gives way. -/
def declare (base : Nat) (s : Slot) : Run Unit :=
  modify fun m =>
    match (m.scope.take (m.scope.length - base)).findIdx? (fun t => t.name == s.name) with
    | some i => { m with scope := m.scope.set i s }
    | none => { m with scope := s :: m.scope }

/-- Runs a computation and takes its variables out of scope again. -/
def within {α : Type} (r : Run α) : Run α := fun (m : Machine) =>
  let base := m.scope.length
  let (result, m) := r m
  (result, { m with scope := m.scope.drop (m.scope.length - base) })

/-- Runs a computation with a scope of its own. -/
def apart {α : Type} (scope : List Slot) (r : Run α) : Run α := fun (m : Machine) =>
  let outer := m.scope
  let (result, m) := r { m with scope }
  (result, { m with scope := outer })

/-- Runs the body of a loop once. The value with which it leaves the loop, if it does. -/
def once (r : Run Value) : Run (Option Value) := fun (m : Machine) =>
  match r m with
  | (.ok _, m) => (.ok none, m)
  | (.error (.leave v), m) => (.ok (some v), m)
  | (.error .proceed, m) => (.ok none, m)
  | (.error e, m) => (.error e, m)

/-- Runs the body of a function that is called at a place. -/
def called (name : String) (p : Position) (r : Run Value) : Run Value := fun (m : Machine) =>
  match r m with
  | (.error (.giveBack v), m) => (.ok v, m)
  | (.error (.failure f), m) => (.error (.failure (f.through name p)), m)
  | outcome => outcome

/-- Runs a computation, and another one on a failure that can be caught. -/
def rescue (r : Run Value) (handler : Failure → Run Value) : Run Value := fun (m : Machine) =>
  match r m with
  | (.error (.failure f), m) =>
    if f.fault.fatal then (.error (.failure f), m) else handler f m
  | outcome => outcome

/-- Runs a handler of a failure; raising nothing in it raises the failure again. -/
def handling (f : Failure) (r : Run Value) : Run Value := fun (m : Machine) =>
  match r m with
  | (.error (.failure ⟨.raised .unit, p, []⟩), m) => (.error (.failure (f.moved p)), m)
  | outcome => outcome

/-- A step into a container. -/
inductive Key where
  | element (index : Nat)
  | entry (name : String)
  deriving DecidableEq

namespace Value

/-- The part of a value at the end of a path. -/
def at? : Value → List Key → Option Value
  | v, [] => some v
  | array items, .element i :: path => (items[i]?).bind fun v => v.at? path
  | map keys values, .entry k :: path =>
    ((NameMap.zip keys values).find? k).bind fun v => v.at? path
  | _, _ => none

/-- The value with another part at the end of a path; a missing entry is added. -/
def put : Value → List Key → Value → Value
  | _, [], new => new
  | array items, .element i :: path, new => array (items.modify i fun v => v.put path new)
  | map keys values, .entry k :: path, new =>
    let entries := NameMap.zip keys values
    ofMap (entries.insert k (((entries.find? k).getD unit).put path new))
  | v, _, _ => v

end Value

/-- Something that a chain has reached: a part of a variable, or a value on its own. -/
inductive Target where
  | part (slot : Nat) (path : List Key)
  | loose (v : Value)

namespace Target

/-- The value of a target. -/
def read : Target → Run Value
  | part slot path => do return ((← readSlot slot).value.at? path).getD .unit
  | loose v => pure v

/-- Puts a value in the place of a target; one on its own is lost. -/
def write (t : Target) (v : Value) : Run Unit := do
  match t with
  | part slot path => writeSlot slot ((← readSlot slot).value.put path v)
  | loose _ => pure ()

/-- A part of a target, whose value is given in case the target is on its own. -/
def enter (t : Target) (k : Key) (v : Value) : Target :=
  match t with
  | part slot path => part slot (path ++ [k])
  | loose _ => loose v

/-- Whether a target belongs to a constant. -/
def isConstant : Target → Run Bool
  | part slot _ => do return (← readSlot slot).constant
  | loose _ => pure false

end Target

/-- A link of a chain with its arguments evaluated. -/
inductive Step where
  | index (key : Value) (place bracket : Position)
  | property (name : String) (place : Position)
  | method (name : String) (arguments : List Value) (place : Position)

/-- The position that an index means; negative ones count from the end. -/
def position? (index : Int) (size : Nat) : Option Nat :=
  if index < 0 then (if index.natAbs ≤ size then some (size - index.natAbs) else none)
  else if index.toNat < size then some index.toNat else none

/-- The part of a target that an index names. -/
def enterIndex (t : Target) (key : Value) (p bracket : Position) : Run Target := do
  let container ← t.read
  match container, key with
  | .array items, .int i =>
    match position? i items.length with
    | some n => return t.enter (.element n) (items[n]?.getD .unit)
    | none => fail (.arrayBounds i items.length) p
  | .map keys values, .string k =>
    match (NameMap.zip keys values).find? k with
    | some v => return t.enter (.entry k) v
    | none => return .loose .unit
  | .string s, .int i =>
    match (position? i s.length).bind fun n => s.toList[n]? with
    | some ch => return .loose (.char ch)
    | none => fail (.stringBounds i s.length) p
  | .int n, .int i =>
    match position? i 64 with
    | some k => return .loose (.bool (Builtin.bit n k))
    | none => fail (.bitBounds i) p
  | .array _, v | .string _, v | .int _, v => fail (.wrongType v.typeName "i64") p
  | .map _ _, v => fail (.wrongType v.typeName "string") p
  | _, v => fail (.noIndexer container v none) bracket

/-- The part of a target that a property names. -/
def enterProperty (t : Target) (name : String) (p : Position) : Run Target := do
  match ← t.read with
  | .map keys values =>
    match (NameMap.zip keys values).find? name with
    | some v => return t.enter (.entry name) v
    | none => return .loose .unit
  | .array items =>
    if name = "len" then return .loose (.int items.length) else fail (.noGetter name "array") p
  | .string s =>
    if name = "len" then return .loose (.int s.length) else fail (.noGetter name "string") p
  | v => fail (.noGetter name v.typeName) p

/-- What an assignment puts in the place of an old value. -/
def combine (operator : Option String) (old new : Value) (p : Position) : Run Value :=
  match operator with
  | none => pure new
  | some operator =>
    match Builtin.assign? operator old new with
    | some (.done v) | some (.changed v _) => pure v
    | some (.failed f) => fail f p
    | some .abort => throw (.abort operator [old, new])
    | none => fail (.unknownFunction operator [old, new]) p

/-- Assigns to the part `k` of a target with the given old value. -/
def assignPart (c : Setting) (operator : Option String) (t : Target) (k : Key) (old : Option Value)
    (new : Value) (p : Position) : Run Unit := do
  let part := t.enter k (old.getD .unit)
  if operator.isSome && old.isNone then part.write .unit
  let v ← combine operator (old.getD .unit) new p
  part.write v
  if operator.isSome then checkSize c v p
  else checkSize c (← t.read) p

/-- Assigns to what the last link of a chain names. -/
def assignStep (c : Setting) (operator : Option String) (t : Target) (s : Step) (new : Value)
    (p : Position) : Run Unit := do
  let container ← t.read
  match s, container with
  | .index (.int i) place _, .array items =>
    match position? i items.length with
    | some n => assignPart c operator t (.element n) items[n]? new p
    | none => fail (.arrayBounds i items.length) place
  | .index (.string k) _ _, .map keys values =>
    assignPart c operator t (.entry k) ((NameMap.zip keys values).find? k) new p
  | .index (.int i) place _, .string s =>
    match position? i s.length with
    | some n =>
      match ← combine operator (.char (s.toList[n]?.getD ' ')) new p with
      | .char ch => t.write (.string (String.ofList (s.toList.set n ch)))
      | v => fail (.wrongType v.typeName "char") p
    | none => fail (.stringBounds i s.length) place
  | .index (.int i) place _, .int n =>
    match position? i 64 with
    | some k =>
      match ← combine operator (.bool (Builtin.bit n k)) new p with
      | .bool b => t.write (.int (Builtin.withBit n k b))
      | v => fail (.wrongType v.typeName "bool") p
    | none => fail (.bitBounds i) place
  | .index key place _, .array _ | .index key place _, .string _ | .index key place _, .int _ =>
    fail (.wrongType key.typeName "i64") place
  | .index key place _, .map _ _ => fail (.wrongType key.typeName "string") place
  | .index key _ bracket, v =>
    fail (.noIndexer v key (if operator.isNone then some new else none)) bracket
  | .property name _, .map keys values =>
    assignPart c operator t (.entry name) ((NameMap.zip keys values).find? name) new p
  | .property name place, v =>
    if operator.isNone then fail (.noSetter name v.typeName) place
    else fail (.noGetter name v.typeName) place
  | .method _ _ _, _ => pure ()

/-- Calls an operator or built-in function. A first argument that belongs to a target can be
changed, unless it is constant. -/
def callBuiltin (c : Setting) (name : String) (arguments : List Value) (first : Option Target)
    (p : Position) : Run Value := do
  match Builtin.call? name arguments, first with
  | none, _ => fail (.unknownFunction name arguments) p
  | some (.failed f), _ => fail f p
  | some .abort, _ => throw (.abort name arguments)
  | some (.done v), none | some (.changed v _), none =>
    checkSize c v p
    return v
  | some (.done v), some t =>
    checkSize c (← t.read) p
    checkSize c v p
    return v
  | some (.changed v new), some t =>
    if ← t.isConstant then fail (.constantMethod name) p
    t.write new
    checkSize c new p
    checkSize c v p
    return v

/-- The values that a loop runs over. -/
inductive Source where
  | values (vs : List Value)
  | ints (next last : Int)

namespace Source

/-- The next value and the source behind it. -/
def next? : Source → Option (Value × Source)
  | values [] => none
  | values (v :: vs) => some (v, values vs)
  | ints n last => if n ≤ last then some (.int n, ints (n + 1) last) else none

/-- The values of an iterable value. -/
def of? : Value → Option Source
  | .array items => some (values items)
  | .string s => some (values (s.toList.map Value.char))
  | .range a b closed => some (ints a (if closed then b else b - 1))
  | _ => none

end Source

end Script

end DerivedSignal
