import DerivedSignal.Script.Machine

namespace DerivedSignal

namespace Script

/-- The function of a name for so many arguments. -/
def Setting.function? (c : Setting) (name : String) (count : Nat) : Option Function :=
  c.functions.find? fun f => f.name == name && f.parameters.length == count

/-- The scope in which a function runs: its parameters, the last one newest. -/
def Function.scope (f : Function) (arguments : List Value) : List Slot :=
  ((f.parameters.zip arguments).map fun (name, value) => ⟨name, value, false⟩).reverse

-- Fuel bounds the number of nested steps. How many a script needs is not known before it has run.
mutual

/-- The value of an expression. -/
def eval : Nat → Setting → Expr → Run Value
  | 0, _, _ => throw .exhausted
  | fuel + 1, c, e =>
    match e with
    | .literal v _ => pure v
    | .name n p => do
      tick c p
      return (← readSlot (← slotOf n p)).value
    | .template parts p => do return .string (← evalTemplate fuel c parts p "")
    | .array items _ => do return .array (← evalItems fuel c items ⟨0, 0, 0⟩)
    | .map entries _ => do
      return .ofMap (← evalEntries fuel c entries ⟨0, 0, 0⟩ NameMap.empty)
    | .both a b _ => do
      if ← evalBool fuel c a then return .bool (← evalBool fuel c b) else return .bool false
    | .either a b _ => do
      if ← evalBool fuel c a then return .bool true else return .bool (← evalBool fuel c b)
    | .call f arguments p => do
      tick c p
      match arguments with
      | .name n q :: rest =>
        let vs ← evalAll fuel c rest
        let i ← slotOf n q
        let slot ← readSlot i
        invoke fuel c f (slot.value :: vs) (if slot.constant then none else some (.part i [])) p
      | arguments => invoke fuel c f (← evalAll fuel c arguments) none p
    | .chain root links => do
      tick c root.place
      let steps ← evalLinks fuel c links
      let t ← evalRoot fuel c root
      (← follow fuel c t steps).read
    | .statement s _ => within do
      let base := (← get).scope.length
      evalStmt fuel c base s

/-- The truth value of a condition. -/
def evalBool : Nat → Setting → Expr → Run Bool
  | 0, _, _ => throw .exhausted
  | fuel + 1, c, e => do
    match ← eval fuel c e with
    | .bool b => return b
    | v => fail (.wrongType v.typeName "bool") e.place

/-- The values of some expressions, from left to right. -/
def evalAll : Nat → Setting → List Expr → Run (List Value)
  | 0, _, _ => throw .exhausted
  | _ + 1, _, [] => pure []
  | fuel + 1, c, e :: es => do
    let v ← eval fuel c e
    return v :: (← evalAll fuel c es)

/-- The text of the pieces of a template behind a text. -/
def evalTemplate : Nat → Setting → List Expr → Position → String → Run String
  | 0, _, _, _, _ => throw .exhausted
  | _ + 1, _, [], _, s => pure s
  | fuel + 1, c, e :: es, p, s => do
    let v ← eval fuel c e
    let s := s ++ v.text
    checkSize c (.string s) p
    evalTemplate fuel c es p s

/-- The items of an array behind items of a given extent. -/
def evalItems : Nat → Setting → List Expr → Value.Extent → Run (List Value)
  | 0, _, _, _ => throw .exhausted
  | _ + 1, _, [], _ => pure []
  | fuel + 1, c, e :: es, before => do
    let v ← eval fuel c e
    let extent := before + v.extent + ⟨1, 0, 0⟩
    checkExtent c extent e.place
    return v :: (← evalItems fuel c es extent)

/-- The entries of a map behind entries of a given extent. -/
def evalEntries : Nat → Setting → List (String × Expr) → Value.Extent → NameMap Value →
    Run (NameMap Value)
  | 0, _, _, _, _ => throw .exhausted
  | _ + 1, _, [], _, done => pure done
  | fuel + 1, c, (k, e) :: es, before, done => do
    let v ← eval fuel c e
    let extent := before + v.extent + ⟨0, 1, 0⟩
    checkExtent c extent e.place
    evalEntries fuel c es extent (done.insert k v)

/-- Calls a function with its arguments; those of the script win over built-in ones. -/
def invoke : Nat → Setting → String → List Value → Option Target → Position → Run Value
  | 0, _, _, _, _, _ => throw .exhausted
  | fuel + 1, c, name, arguments, first, p =>
    match c.function? name arguments.length with
    | some f => callFunction fuel c f arguments p
    | none => callBuiltin c name arguments first p

/-- Calls a function of the script. -/
def callFunction : Nat → Setting → Function → List Value → Position → Run Value
  | 0, _, _, _, _ => throw .exhausted
  | fuel + 1, c, f, arguments, p =>
    if c.level + 1 > c.limits.maxCallLevels then fail .stackOverflow p
    else called f.name p (apart (f.scope arguments)
      (evalBody fuel { c with level := c.level + 1 } 0 f.body))

/-- The links of a chain with their arguments evaluated, from left to right. -/
def evalLinks : Nat → Setting → List Link → Run (List Step)
  | 0, _, _ => throw .exhausted
  | _ + 1, _, [] => pure []
  | fuel + 1, c, l :: ls => do
    let step ← match l with
      | .index key bracket => do pure (Step.index (← eval fuel c key) key.start bracket)
      | .property name p => pure (Step.property name p)
      | .method name arguments p => do pure (Step.method name (← evalAll fuel c arguments) p)
    return step :: (← evalLinks fuel c ls)

/-- Where a chain begins: at a variable, or at the value of its root. -/
def evalRoot : Nat → Setting → Expr → Run Target
  | 0, _, _ => throw .exhausted
  | fuel + 1, c, root => do
    match root with
    | .name n p => return .part (← slotOf n p) []
    | root => return .loose (← eval fuel c root)

/-- Follows the links of a chain. -/
def follow : Nat → Setting → Target → List Step → Run Target
  | 0, _, _, _ => throw .exhausted
  | _ + 1, _, t, [] => pure t
  | fuel + 1, c, t, s :: rest => do
    let next ← match s with
      | .index key p bracket => enterIndex t key p bracket
      | .property name p => enterProperty t name p
      | .method name arguments p =>
        match c.function? name arguments.length with
        | some f => do pure (Target.loose (← callFunction fuel c f arguments p))
        | none => do
          pure (Target.loose (← callBuiltin c name ((← t.read) :: arguments) (some t) p))
    follow fuel c next rest

/-- The value of a statement; variables above the `base` oldest ones belong to its block. -/
def evalStmt : Nat → Setting → Nat → Stmt → Run Value
  | 0, _, _, _ => throw .exhausted
  | fuel + 1, c, base, s =>
    match s with
    | .expr e => eval fuel c e
    | .declare constant name value p => do
      tick c p
      let v ← match value with
        | some e => eval fuel c e
        | none => pure .unit
      declare base ⟨name, v, constant⟩
      return .unit
    | .assign operator (.name n q) value p => do
      tick c p
      let v ← eval fuel c value
      let i ← slotOf n q
      let slot ← readSlot i
      if slot.constant then fail (.constant n) q
      let v ← combine operator slot.value v p
      writeSlot i v
      if operator.isSome then checkSize c v p
      return .unit
    | .assign operator (.chain root links) value p => do
      tick c p
      let v ← eval fuel c value
      let steps ← evalLinks fuel c links
      let t ← evalRoot fuel c root
      if ← t.isConstant then
        fail (.constant (match root with
          | .name n _ => n
          | _ => "")) root.place
      match steps.getLast? with
      | some last =>
        let t ← follow fuel c t steps.dropLast
        assignStep c operator t last v p
        return .unit
      | none => return .unit
    | .assign _ _ _ _ => pure .unit
    | .block body => evalBlock fuel c body
    | .branch condition yes no => do
      tick c condition.place
      if ← evalBool fuel c condition then evalBlock fuel c yes else evalBlock fuel c no
    | .whileLoop condition body p => whileLoop fuel c condition body p
    | .doLoop body condition goOn p => doLoop fuel c body condition goOn p
    | .forLoop name source body p => do
      tick c p
      match Source.of? (← eval fuel c source) with
      | some source => forLoop fuel c name source body p
      | none => fail .notIterable source.start
    | .leave value p => do
      tick c p
      match value with
      | some e => throw (.leave (← eval fuel c e))
      | none => throw (.leave .unit)
    | .proceed p => do
      tick c p
      throw .proceed
    | .giveBack value p => do
      tick c p
      match value with
      | some e => throw (.giveBack (← eval fuel c e))
      | none => throw (.giveBack .unit)
    | .raise value p => do
      tick c p
      match value with
      | some e => fail (.raised (← eval fuel c e)) p
      | none => fail (.raised .unit) p
    | .attempt body name handler p => do
      tick c p
      rescue (evalBlock fuel c body) fun f =>
        handling f (within do
          match name with
          | some n => pushSlot ⟨n, f.caught, false⟩
          | none => pure ()
          evalBlock fuel c handler)

/-- The value of the last of some statements. -/
def evalBody : Nat → Setting → Nat → List Stmt → Run Value
  | 0, _, _, _ => throw .exhausted
  | _ + 1, _, _, [] => pure .unit
  | fuel + 1, c, base, [s] => evalStmt fuel c base s
  | fuel + 1, c, base, s :: rest => do
    let _ ← evalStmt fuel c base s
    evalBody fuel c base rest

/-- The value of a block, whose variables go out of scope with it. -/
def evalBlock : Nat → Setting → List Stmt → Run Value
  | 0, _, _ => throw .exhausted
  | fuel + 1, c, body => within do
    let base := (← get).scope.length
    evalBody fuel c base body

/-- Repeats a block as long as a condition before it holds. -/
def whileLoop : Nat → Setting → Option Expr → List Stmt → Position → Run Value
  | 0, _, _, _, _ => throw .exhausted
  | fuel + 1, c, condition, body, p => do
    tick c p
    let goOn ← match condition with
      | some e => evalBool fuel c e
      | none => pure true
    if goOn then
      match ← once (evalBlock fuel c body) with
      | some v => return v
      | none => whileLoop fuel c condition body p
    else return .unit

/-- Repeats a block as long as a condition behind it has a given value. -/
def doLoop : Nat → Setting → List Stmt → Expr → Bool → Position → Run Value
  | 0, _, _, _, _, _ => throw .exhausted
  | fuel + 1, c, body, condition, goOn, p => do
    tick c p
    match ← once (evalBlock fuel c body) with
    | some v => return v
    | none =>
      if (← evalBool fuel c condition) == goOn then doLoop fuel c body condition goOn p
      else return .unit

/-- Runs a block for each value of a source. -/
def forLoop : Nat → Setting → String → Source → List Stmt → Position → Run Value
  | 0, _, _, _, _, _ => throw .exhausted
  | fuel + 1, c, name, source, body, p =>
    match source.next? with
    | none => pure .unit
    | some (v, source) => do
      tick c p
      let run := within do
        pushSlot ⟨name, v, false⟩
        evalBlock fuel c body
      match ← once run with
      | some v => return v
      | none => forLoop fuel c name source body p

end

/-- Fuel for a first attempt. -/
def plenty : Nat := twoTo 62

/-- How a script ends, and on which machine. -/
abbrev Ending := Except Interrupt Value × Machine

/-- Fuel that is enough for a run. It is searched for as long as the run goes on. -/
def enough (run : Nat → Ending) : Nat → Nat :=
  repeatM (m := Id) fun fuel =>
    match run fuel with
    | (.error .exhausted, _) => .inl (2 * fuel)
    | _ => .inr fuel

/-- The end of a run with all the fuel that it needs. It is exhausted only if no fuel is enough. -/
def ending (run : Nat → Ending) : Ending :=
  match run plenty with
  | (.error .exhausted, _) => run (enough run (2 * plenty))
  | ending => ending

section Ending

variable {run : Nat → Ending}

theorem enough_eq (fuel : Nat) :
    enough run fuel =
      match run fuel with
      | (.error .exhausted, _) => enough run (2 * fuel)
      | _ => fuel := by
  rw [enough, repeatM_eq_of_monadTail, repeatM.body]
  split <;> rfl

/-- The search ends if fuel is enough from some amount on. -/
theorem run_enough_ne_exhausted {need fuel : Nat} (hpos : 0 < fuel)
    (h : ∀ fuel, need ≤ fuel → (run fuel).1 ≠ .error .exhausted) :
    (run (enough run fuel)).1 ≠ .error .exhausted := by
  induction hleft : need - fuel using Nat.strongRecOn generalizing fuel with
  | ind left ih =>
    rw [enough_eq]
    split
    next m hr =>
      have hshort : fuel < need := Nat.lt_of_not_le fun hlong => h fuel hlong (by rw [hr])
      exact ih (need - 2 * fuel) (by omega) (by omega) rfl
    next hr => exact fun he => hr _ (Prod.ext he rfl)

/-- The end of a run is its end with some fuel. -/
theorem exists_ending (run : Nat → Ending) : ∃ fuel, ending run = run fuel := by
  unfold ending
  split
  next => exact ⟨_, rfl⟩
  next => exact ⟨plenty, rfl⟩

/-- A run for which no fuel is enough goes on for ever. -/
theorem ending_exhausted (h : ∀ fuel, (run fuel).1 = .error .exhausted) : (ending run).1 = .error .exhausted := by
  obtain ⟨fuel, hfuel⟩ := exists_ending run
  rw [hfuel, h]

theorem ending_of_plenty {e : Ending} (h : run plenty = e) (he : e.1 ≠ .error .exhausted) : ending run = e := by
  unfold ending
  split
  next hr => exact absurd (by rw [← h, hr]) he
  next => exact h

/-- A run for which enough fuel exists does not go on for ever. -/
theorem ending_ne_exhausted {need : Nat} (h : ∀ fuel, need ≤ fuel → (run fuel).1 ≠ .error .exhausted) :
    (ending run).1 ≠ .error .exhausted := by
  unfold ending
  split
  next => exact run_enough_ne_exhausted (by decide +kernel) h
  next hr => exact fun he => hr _ (Prod.ext he rfl)

end Ending

/-- Runs statements on some variables: their value, or why there is none, and the variables
after it. -/
def execute (limits : Limits) (functions : List Function) (body : List Stmt) (scope : List Slot) :
    Except Interrupt Value × List Slot :=
  match ending fun fuel => evalBody fuel ⟨limits, functions, 0⟩ scope.length body ⟨scope, 0⟩ with
  | (.error (.giveBack v), m) => (.ok v, m.scope)
  | (result, m) => (result, m.scope)

end Script

end DerivedSignal
