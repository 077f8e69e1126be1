import DerivedSignal.Proofs.RunEndings
import DerivedSignal.Script.Session

namespace DerivedSignal

namespace Script

variable {fuel base steps : ℕ} {c : Setting} {m m' m'' : Machine} {v : Value}

/-- Whether no variable of a scope has a name. -/
def lacks (scope : List Slot) (name : String) : Bool := scope.all fun s => s.name != name

theorem lacks_append (above below : List Slot) (name : String) :
    lacks (above ++ below) name = (lacks above name && lacks below name) := List.all_append

section Slots

variable {above below : List Slot} {s : Slot} {p : Position}

theorem slotOf_append (habove : lacks above s.name = true) :
    slotOf s.name p ⟨above ++ s :: below, steps⟩ = (.ok above.length, ⟨above ++ s :: below, steps⟩) := by
  have hnone : above.findIdx? (fun t => t.name == s.name) = none := by
    rw [List.findIdx?_eq_none_iff]
    exact fun t ht => by simpa using List.all_eq_true.mp habove t ht
  have hfound : (above ++ s :: below).findIdx? (fun t => t.name == s.name) = some above.length := by
    rw [List.findIdx?_append, hnone, List.findIdx?_cons, beq_self_eq_true]
    simp
  have hget : (get : Run Machine) ⟨above ++ s :: below, steps⟩ =
      (.ok ⟨above ++ s :: below, steps⟩, ⟨above ++ s :: below, steps⟩) := rfl
  rw [slotOf, Ends.bind_of_ok hget]
  simp only [hfound]
  rfl

theorem readSlot_append :
    readSlot above.length ⟨above ++ s :: below, steps⟩ = (.ok s, ⟨above ++ s :: below, steps⟩) := by
  have hslot : (above ++ s :: below)[above.length]? = some s := by simp
  change (Except.ok (((above ++ s :: below)[above.length]?).getD default), _) = _
  rw [hslot]
  rfl

theorem writeSlot_append (v : Value) : writeSlot above.length v ⟨above ++ s :: below, steps⟩ =
    (.ok (), ⟨above ++ { s with value := v } :: below, steps⟩) := by
  have hslot : (above ++ s :: below).modify above.length (fun s => { s with value := v }) =
      above ++ { s with value := v } :: below := by
    induction above with
    | nil => rfl
    | cons t above ih => rw [List.cons_append, List.length_cons, List.modify_succ_cons, ih, List.cons_append]
  change (Except.ok (), (⟨(above ++ s :: below).modify above.length _, steps⟩ : Machine)) = _
  rw [hslot]

end Slots

section Steps

variable {α : Type} {functions : List Function} {level : ℕ} {scope : List Slot} {p : Position}

/-- A step within the standard limits. -/
theorem tick_bind {r : Run α} (h : steps < 50000) :
    (tick ⟨{}, functions, level⟩ p >>= fun _ => r) ⟨scope, steps⟩ = r ⟨scope, steps + 1⟩ := by
  have hlimit : Limits.exceeds 50000 (steps + 1) = false := by
    simp only [Limits.exceeds, gt_iff_lt, Bool.and_eq_false_imp, decide_eq_false_iff_not]
    omega
  have htick : tick ⟨{}, functions, level⟩ p ⟨scope, steps⟩ = (.ok (), ⟨scope, steps + 1⟩) := by
    change (if Limits.exceeds 50000 (steps + 1) = true then (fail .tooManyOperations p : Run Unit)
      else pure ()) ⟨scope, steps + 1⟩ = _
    rw [hlimit]
    rfl
  exact Ends.bind_of_ok htick

end Steps

section Expressions

variable {e : Expr} {es : List Expr} {p q : Position}

theorem eval_name {above below : List Slot} {s : Slot} {functions : List Function} {level : ℕ}
    (habove : lacks above s.name = true) (hsteps : steps < 50000) :
    eval (fuel + 1) ⟨{}, functions, level⟩ (.name s.name p) ⟨above ++ s :: below, steps⟩ =
      (.ok s.value, ⟨above ++ s :: below, steps + 1⟩) := by
  rw [eval, tick_bind hsteps, Ends.bind_of_ok (slotOf_append habove), Ends.bind_of_ok readSlot_append]
  rfl

theorem eval_literal : eval (fuel + 1) c (.literal v p) m = (.ok v, m) := rfl

theorem evalAll_nil : evalAll (fuel + 1) c [] m = (.ok [], m) := rfl

theorem evalAll_cons {vs : List Value} (h : eval fuel c e m = (.ok v, m'))
    (h' : evalAll fuel c es m' = (.ok vs, m'')) :
    evalAll (fuel + 1) c (e :: es) m = (.ok (v :: vs), m'') := by
  rw [evalAll, Ends.bind_of_ok h, Ends.bind_of_ok h']
  rfl

/-- An operator whose first operand is the result of another one. -/
theorem eval_call_call {f g : String} {operands : List Expr} {vs : List Value}
    (h : (tick c p >>= fun _ => evalAll fuel c (.call g es q :: operands)) m = (.ok vs, m')) :
    eval (fuel + 1) c (.call f (.call g es q :: operands) p) m = invoke fuel c f vs none p m' := by
  rw [eval, ← bind_assoc, Ends.bind_of_ok h]
  intro name q' operands' hname
  cases hname

theorem eval_statement {scope scope' : List Slot} {steps' : ℕ} {s : Stmt}
    (h : evalStmt fuel c scope.length s ⟨scope, steps⟩ = (.ok v, ⟨scope', steps'⟩))
    (hlength : scope'.length = scope.length) :
    eval (fuel + 1) c (.statement s p) ⟨scope, steps⟩ = (.ok v, ⟨scope', steps'⟩) := by
  have hrun : (get >>= fun a : Machine => evalStmt fuel c a.scope.length s) ⟨scope, steps⟩ =
      (.ok v, ⟨scope', steps'⟩) := h
  simp [eval, within, hrun, hlength]

end Expressions

section Statements

variable {e : Expr} {p q : Position}

theorem evalStmt_expr (h : eval fuel c e m = (.ok v, m')) :
    evalStmt (fuel + 1) c base (.expr e) m = (.ok v, m') := h

theorem evalBody_cons {s : Stmt} {rest : List Stmt} (h : evalStmt fuel c base s m = (.ok v, m'))
    (hrest : rest ≠ []) : evalBody (fuel + 1) c base (s :: rest) m = evalBody fuel c base rest m' := by
  cases rest with
  | nil => exact absurd rfl hrest
  | cons t rest => exact Ends.bind_of_ok h

theorem evalBlock_singleton {scope scope' : List Slot} {steps' : ℕ} {s : Stmt}
    (h : evalStmt fuel c scope.length s ⟨scope, steps⟩ = (.ok v, ⟨scope', steps'⟩))
    (hlength : scope'.length = scope.length) :
    evalBlock (fuel + 2) c [s] ⟨scope, steps⟩ = (.ok v, ⟨scope', steps'⟩) := by
  have hrun : (get >>= fun a : Machine => evalBody (fuel + 1) c a.scope.length [s]) ⟨scope, steps⟩ =
      (.ok v, ⟨scope', steps'⟩) := h
  simp [evalBlock, within, hrun, hlength]

theorem evalStmt_declare {constant : Bool} {name : String}
    (h : (tick c p >>= fun _ => eval fuel c e) m = (.ok v, m')) :
    evalStmt (fuel + 1) c base (.declare constant name (some e) p) m =
      (.ok .unit, (declare base ⟨name, v, constant⟩ m').2) := by
  rw [evalStmt, ← bind_assoc, Ends.bind_of_ok h]
  rfl

theorem evalStmt_branch {condition : Expr} {yes no : List Stmt} {b : Bool}
    (h : (tick c condition.place >>= fun _ => evalBool fuel c condition) m = (.ok b, m')) :
    evalStmt (fuel + 1) c base (.branch condition yes no) m =
      (if b then evalBlock fuel c yes else evalBlock fuel c no) m' := by
  rw [evalStmt, ← bind_assoc]
  exact Ends.bind_of_ok h

/-- An assignment is about the newest variable of the name. -/
theorem evalStmt_assign_name {operator : Option String} (above : List Slot) {below : List Slot} {s : Slot}
    {new : Value}
    (h : (tick c p >>= fun _ => eval fuel c e) m = (.ok new, ⟨above ++ s :: below, steps⟩))
    (habove : lacks above s.name = true) (hconstant : s.constant = false) :
    evalStmt (fuel + 1) c base (.assign operator (.name s.name q) e p) m =
      (do
        let v ← combine operator s.value new p
        writeSlot above.length v
        if operator.isSome then checkSize c v p
        return .unit : Run Value) ⟨above ++ s :: below, steps⟩ := by
  rw [evalStmt, ← bind_assoc, Ends.bind_of_ok h, Ends.bind_of_ok (slotOf_append habove),
    Ends.bind_of_ok readSlot_append, hconstant, if_neg Bool.false_ne_true]

/-- An assignment puts a value in the place of the old one. -/
theorem evalStmt_assign {operator : Option String} (above : List Slot) {below : List Slot} {s : Slot}
    {new : Value}
    (h : (tick c p >>= fun _ => eval fuel c e) m = (.ok new, ⟨above ++ s :: below, steps⟩))
    (habove : lacks above s.name = true) (hconstant : s.constant = false)
    (hcombine : ∀ m, combine operator s.value new p m = (.ok v, m))
    (hsize : operator.isSome = true → ∀ m, checkSize c v p m = (.ok (), m)) :
    evalStmt (fuel + 1) c base (.assign operator (.name s.name q) e p) m =
      (.ok .unit, ⟨above ++ { s with value := v } :: below, steps⟩) := by
  rw [evalStmt_assign_name above h habove hconstant, Ends.bind_of_ok (hcombine _),
    Ends.bind_of_ok (writeSlot_append v), hconstant]
  split
  next hsome =>
    rw [Ends.bind_of_ok (hsize hsome _)]
    rfl
  next => rfl

theorem evalStmt_assign_plain {functions : List Function} {level steps' : ℕ}
    {scope above below : List Slot} {s : Slot} (hsteps : steps < 50000)
    (h : eval fuel ⟨{}, functions, level⟩ e ⟨scope, steps + 1⟩ = (.ok v, ⟨above ++ s :: below, steps'⟩))
    (habove : lacks above s.name = true) (hconstant : s.constant = false) :
    evalStmt (fuel + 1) ⟨{}, functions, level⟩ base (.assign none (.name s.name q) e p) ⟨scope, steps⟩ =
      (.ok .unit, ⟨above ++ { s with value := v } :: below, steps'⟩) :=
  evalStmt_assign above ((tick_bind hsteps).trans h) habove hconstant (fun _ => rfl) nofun

end Statements

end Script

end DerivedSignal
