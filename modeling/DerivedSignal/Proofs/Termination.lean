import DerivedSignal.Proofs.FuelIndependence
import DerivedSignal.Proofs.PromptSteps

namespace DerivedSignal

namespace Script

/-- A run with so much fuel comes to an end if the fuel covers the text that is run and the reserve of the
machine. -/
structure Settling (fuel : Nat) : Prop where
  eval {c : Setting} (hc : c.limits.maxOperations ≠ 0) {e : Expr} {m : Machine}
    (h : 2 * sizeOf e + 1 + c.reserve m ≤ fuel) : Settled c (eval fuel c e) m
  evalBool {c : Setting} (hc : c.limits.maxOperations ≠ 0) {e : Expr} {m : Machine}
    (h : 2 * sizeOf e + 2 + c.reserve m ≤ fuel) : Settled c (evalBool fuel c e) m
  evalAll {c : Setting} (hc : c.limits.maxOperations ≠ 0) {es : List Expr} {m : Machine}
    (h : 2 * sizeOf es + 1 + c.reserve m ≤ fuel) : Settled c (evalAll fuel c es) m
  evalTemplate {c : Setting} (hc : c.limits.maxOperations ≠ 0) {es : List Expr} {m : Machine} (p : Position)
    (s : String) (h : 2 * sizeOf es + 1 + c.reserve m ≤ fuel) : Settled c (evalTemplate fuel c es p s) m
  evalItems {c : Setting} (hc : c.limits.maxOperations ≠ 0) {es : List Expr} {m : Machine}
    (before : Value.Extent) (h : 2 * sizeOf es + 1 + c.reserve m ≤ fuel) :
    Settled c (evalItems fuel c es before) m
  evalEntries {c : Setting} (hc : c.limits.maxOperations ≠ 0) {es : List (String × Expr)} {m : Machine}
    (before : Value.Extent) (done : NameMap Value) (h : 2 * sizeOf es + 1 + c.reserve m ≤ fuel) :
    Settled c (evalEntries fuel c es before done) m
  invoke {c : Setting} (hc : c.limits.maxOperations ≠ 0) {m : Machine} (f : String) (arguments : List Value)
    (first : Option Target) (p : Position) (h : c.stride + c.reserve m ≤ fuel) :
    Settled c (invoke fuel c f arguments first p) m
  callFunction {c : Setting} (hc : c.limits.maxOperations ≠ 0) {f : Function} {m : Machine}
    (arguments : List Value) (p : Position) (h : 2 * sizeOf f.body + 2 + c.reserve m ≤ fuel) :
    Settled c (callFunction fuel c f arguments p) m
  evalLinks {c : Setting} (hc : c.limits.maxOperations ≠ 0) {ls : List Link} {m : Machine}
    (h : 2 * sizeOf ls + 1 + c.reserve m ≤ fuel) : Settled c (evalLinks fuel c ls) m
  evalRoot {c : Setting} (hc : c.limits.maxOperations ≠ 0) {e : Expr} {m : Machine}
    (h : 2 * sizeOf e + 2 + c.reserve m ≤ fuel) : Settled c (evalRoot fuel c e) m
  follow {c : Setting} (hc : c.limits.maxOperations ≠ 0) {steps : List Step} {m : Machine} (t : Target)
    (h : c.stride + steps.length + c.reserve m ≤ fuel) : Settled c (follow fuel c t steps) m
  evalStmt {c : Setting} (hc : c.limits.maxOperations ≠ 0) {s : Stmt} {m : Machine} (base : Nat)
    (h : 2 * sizeOf s + 1 + c.reserve m ≤ fuel) : Settled c (evalStmt fuel c base s) m
  evalBody {c : Setting} (hc : c.limits.maxOperations ≠ 0) {body : List Stmt} {m : Machine} (base : Nat)
    (h : 2 * sizeOf body + 1 + c.reserve m ≤ fuel) : Settled c (evalBody fuel c base body) m
  evalBlock {c : Setting} (hc : c.limits.maxOperations ≠ 0) {body : List Stmt} {m : Machine}
    (h : 2 * sizeOf body + 2 + c.reserve m ≤ fuel) : Settled c (evalBlock fuel c body) m
  whileLoop {c : Setting} (hc : c.limits.maxOperations ≠ 0) {condition : Option Expr} {body : List Stmt}
    {m : Machine} (p : Position) (h : 2 * sizeOf condition + 2 * sizeOf body + 1 + c.reserve m ≤ fuel) :
    Settled c (whileLoop fuel c condition body p) m
  doLoop {c : Setting} (hc : c.limits.maxOperations ≠ 0) {body : List Stmt} {condition : Expr} {m : Machine}
    (goOn : Bool) (p : Position) (h : 2 * sizeOf body + 2 * sizeOf condition + 1 + c.reserve m ≤ fuel) :
    Settled c (doLoop fuel c body condition goOn p) m
  forLoop {c : Setting} (hc : c.limits.maxOperations ≠ 0) {body : List Stmt} {m : Machine} (name : String)
    (source : Source) (p : Position) (h : 2 * sizeOf body + 1 + c.reserve m ≤ fuel) :
    Settled c (forLoop fuel c name source body p) m

theorem settling_zero : Settling 0 where
  eval _ h := by omega
  evalBool _ h := by omega
  evalAll _ h := by omega
  evalTemplate _ _ _ h := by omega
  evalItems _ _ h := by omega
  evalEntries _ _ _ h := by omega
  invoke {c} _ _ _ _ _ h := by have := three_le_stride c; omega
  callFunction _ _ _ h := by omega
  evalLinks _ h := by omega
  evalRoot _ h := by omega
  follow {c} _ _ h := by have := three_le_stride c; omega
  evalStmt _ _ h := by omega
  evalBody _ _ h := by omega
  evalBlock _ h := by omega
  whileLoop _ _ h := by omega
  doLoop _ _ _ h := by omega
  forLoop _ _ _ h := by omega

theorem bind_eq_ok {α β : Type} {r : Run α} {k : α → Run β} {m m' : Machine} {b : β}
    (h : (r >>= k) m = (.ok b, m')) : ∃ a m₁, r m = (.ok a, m₁) ∧ k a m₁ = (.ok b, m') := by
  rcases hr : r m with ⟨e | a, m₁⟩
  · rw [Ends.bind_of_error hr] at h
    cases h
  · rw [Ends.bind_of_ok hr] at h
    exact ⟨a, m₁, rfl, h⟩

/-- A chain has a step for each of its links. -/
theorem length_of_evalLinks {fuel : Nat} {c : Setting} {ls : List Link} {m m' : Machine} {steps : List Step}
    (h : evalLinks fuel c ls m = (.ok steps, m')) : steps.length = ls.length := by
  induction fuel generalizing ls m m' steps with
  | zero => cases h
  | succ fuel ih =>
    cases ls with
    | nil =>
      cases h
      rfl
    | cons l ls =>
      have hrest : ∀ (step : Step) (m₁ : Machine),
          (do return step :: (← evalLinks fuel c ls) : Run (List Step)) m₁ = (.ok steps, m') →
          steps.length = (l :: ls).length := by
        intro step m₁ h
        obtain ⟨rest, m₂, hrest, h⟩ := bind_eq_ok h
        cases h
        rw [List.length_cons, ih hrest, List.length_cons]
      cases l with
      | index key bracket =>
        obtain ⟨v, m₁, -, h⟩ := bind_eq_ok h
        exact hrest _ m₁ h
      | property name p => exact hrest _ m h
      | method name arguments p =>
        obtain ⟨vs, m₁, -, h⟩ := bind_eq_ok h
        exact hrest _ m₁ h

theorem length_le_sizeOf {α : Type} [SizeOf α] (l : List α) : l.length ≤ sizeOf l := by
  induction l with
  | nil => simp
  | cons a l ih =>
    simp only [List.length_cons, List.cons.sizeOf_spec]
    omega

/-- The body of a function is covered by the stride of a setting that has the function. -/
theorem body_lt_stride {c : Setting} {f : Function} (hf : f ∈ c.functions) :
    2 * sizeOf f.body + 3 ≤ c.stride := by
  have hsize := List.sizeOf_lt_of_mem hf
  have hbody : sizeOf f = 1 + sizeOf f.name + sizeOf f.parameters + sizeOf f.body := by
    cases f
    rfl
  unfold Setting.stride
  omega

section Step

variable {fuel : Nat} (ih : Settling fuel) {c : Setting} (hc : c.limits.maxOperations ≠ 0) {m : Machine}

include ih hc

theorem settled_eval_succ {e : Expr} (h : 2 * sizeOf e + 1 + c.reserve m ≤ fuel + 1) :
    Settled c (eval (fuel + 1) c e) m := by
  have hstride := three_le_stride c
  cases e with
  | literal v p => exact .pure _
  | name n p =>
    refine .after_tick hc fun m₁ _ => ?_
    refine .after (prompt_slotOf p n) fun i m₂ _ => ?_
    exact .after (prompt_readSlot i) fun _ _ _ => .pure _
  | template parts p =>
    simp only [Expr.template.sizeOf_spec] at h
    exact (ih.evalTemplate hc p "" (by omega)).bind fun _ _ _ => .pure _
  | array items p =>
    simp only [Expr.array.sizeOf_spec] at h
    exact (ih.evalItems hc _ (by omega)).bind fun _ _ _ => .pure _
  | map entries p =>
    simp only [Expr.map.sizeOf_spec] at h
    exact (ih.evalEntries hc _ _ (by omega)).bind fun _ _ _ => .pure _
  | both a b p =>
    simp only [Expr.both.sizeOf_spec] at h
    refine (ih.evalBool hc (by omega)).bind fun x m₁ h₁ => ?_
    split
    next => exact (ih.evalBool hc (by omega)).bind fun _ _ _ => .pure _
    next => exact .pure _
  | either a b p =>
    simp only [Expr.either.sizeOf_spec] at h
    refine (ih.evalBool hc (by omega)).bind fun x m₁ h₁ => ?_
    split
    next => exact .pure _
    next => exact (ih.evalBool hc (by omega)).bind fun _ _ _ => .pure _
  | call f arguments p =>
    simp only [Expr.call.sizeOf_spec] at h
    refine .after_tick hc fun m₁ h₁ => ?_
    split
    next n q rest =>
      simp only [List.cons.sizeOf_spec] at h
      refine (ih.evalAll hc (by omega)).bind fun vs m₂ h₂ => ?_
      refine .after (prompt_slotOf q n) fun i m₃ h₃ => ?_
      refine .after (prompt_readSlot i) fun slot m₄ h₄ => ?_
      exact ih.invoke hc f _ _ p (by omega)
    next =>
      refine (ih.evalAll hc (by omega)).bind fun vs m₂ h₂ => ?_
      exact ih.invoke hc f _ _ p (by omega)
  | chain root links =>
    simp only [Expr.chain.sizeOf_spec] at h
    refine .after_tick hc fun m₁ h₁ => ?_
    refine (ih.evalLinks hc (by omega)).bind_ok fun steps m₂ hsteps h₂ => ?_
    refine (ih.evalRoot hc (by omega)).bind fun t m₃ h₃ => ?_
    have hlength := length_le_sizeOf links
    rw [← length_of_evalLinks hsteps] at hlength
    exact (ih.follow hc t (by omega)).bind fun t' m₄ _ => .of_prompt (prompt_read t')
  | statement s p =>
    simp only [Expr.statement.sizeOf_spec] at h
    exact .within (.after .get fun a m₁ h₁ => ih.evalStmt hc _ (by omega))

theorem settled_evalBool_succ {e : Expr} (h : 2 * sizeOf e + 2 + c.reserve m ≤ fuel + 1) :
    Settled c (evalBool (fuel + 1) c e) m := by
  refine (ih.eval hc (by omega)).bind fun v m₁ _ => ?_
  split
  next => exact .pure _
  next => exact .fail _ _

theorem settled_evalAll_succ {es : List Expr} (h : 2 * sizeOf es + 1 + c.reserve m ≤ fuel + 1) :
    Settled c (evalAll (fuel + 1) c es) m := by
  cases es with
  | nil => exact .pure _
  | cons e es =>
    simp only [List.cons.sizeOf_spec] at h
    refine (ih.eval hc (by omega)).bind fun v m₁ h₁ => ?_
    exact (ih.evalAll hc (by omega)).bind fun _ _ _ => .pure _

theorem settled_evalTemplate_succ {es : List Expr} (p : Position) (s : String)
    (h : 2 * sizeOf es + 1 + c.reserve m ≤ fuel + 1) : Settled c (evalTemplate (fuel + 1) c es p s) m := by
  cases es with
  | nil => exact .pure _
  | cons e es =>
    simp only [List.cons.sizeOf_spec] at h
    refine (ih.eval hc (by omega)).bind fun v m₁ h₁ => ?_
    exact .after (prompt_checkSize c p _) fun _ m₂ h₂ => ih.evalTemplate hc p _ (by omega)

theorem settled_evalItems_succ {es : List Expr} (before : Value.Extent)
    (h : 2 * sizeOf es + 1 + c.reserve m ≤ fuel + 1) : Settled c (evalItems (fuel + 1) c es before) m := by
  cases es with
  | nil => exact .pure _
  | cons e es =>
    simp only [List.cons.sizeOf_spec] at h
    refine (ih.eval hc (by omega)).bind fun v m₁ h₁ => ?_
    refine .after (prompt_checkExtent c e.place _) fun _ m₂ h₂ => ?_
    exact (ih.evalItems hc _ (by omega)).bind fun _ _ _ => .pure _

theorem settled_evalEntries_succ {es : List (String × Expr)} (before : Value.Extent) (done : NameMap Value)
    (h : 2 * sizeOf es + 1 + c.reserve m ≤ fuel + 1) :
    Settled c (evalEntries (fuel + 1) c es before done) m := by
  cases es with
  | nil => exact .pure _
  | cons entry es =>
    obtain ⟨k, e⟩ := entry
    simp only [List.cons.sizeOf_spec, Prod.mk.sizeOf_spec] at h
    refine (ih.eval hc (by omega)).bind fun v m₁ h₁ => ?_
    exact .after (prompt_checkExtent c e.place _) fun _ m₂ h₂ => ih.evalEntries hc _ _ (by omega)

theorem settled_invoke_succ (f : String) (arguments : List Value) (first : Option Target) (p : Position)
    (h : c.stride + c.reserve m ≤ fuel + 1) : Settled c (invoke (fuel + 1) c f arguments first p) m := by
  unfold invoke
  split
  next g hg =>
    have hbody := body_lt_stride (List.mem_of_find?_eq_some hg)
    exact ih.callFunction hc arguments p (by omega)
  next => exact .of_prompt (prompt_callBuiltin c p f arguments first)

theorem settled_callFunction_succ {f : Function} (arguments : List Value) (p : Position)
    (h : 2 * sizeOf f.body + 2 + c.reserve m ≤ fuel + 1) :
    Settled c (callFunction (fuel + 1) c f arguments p) m := by
  unfold callFunction
  split
  next => exact .fail _ _
  next =>
    have hbody : Settled { c with level := c.level + 1 }
        (evalBody fuel { c with level := c.level + 1 } 0 f.body) { m with scope := f.scope arguments } := by
      refine ih.evalBody (c := { c with level := c.level + 1 }) hc 0 ?_
      have hreserve : Setting.reserve { c with level := c.level + 1 } { m with scope := f.scope arguments } =
          c.reserve m := rfl
      omega
    exact Settled.called (c := c) (.apart ⟨hbody.ends, hbody.reserve⟩) f.name p

theorem settled_evalLinks_succ {ls : List Link} (h : 2 * sizeOf ls + 1 + c.reserve m ≤ fuel + 1) :
    Settled c (evalLinks (fuel + 1) c ls) m := by
  cases ls with
  | nil => exact .pure _
  | cons l ls =>
    have hrest : ∀ (step : Step) (m₁ : Machine), c.reserve m₁ ≤ c.reserve m →
        Settled c (do return step :: (← evalLinks fuel c ls)) m₁ := by
      intro step m₁ h₁
      simp only [List.cons.sizeOf_spec] at h
      exact (ih.evalLinks hc (by omega)).bind fun _ _ _ => .pure _
    simp only [List.cons.sizeOf_spec] at h
    cases l with
    | index key bracket =>
      simp only [Link.index.sizeOf_spec] at h
      exact (ih.eval hc (by omega)).bind fun v m₁ h₁ => hrest _ m₁ h₁
    | property name p => exact hrest _ m le_rfl
    | method name arguments p =>
      simp only [Link.method.sizeOf_spec] at h
      exact (ih.evalAll hc (by omega)).bind fun vs m₁ h₁ => hrest _ m₁ h₁

theorem settled_evalRoot_succ {e : Expr} (h : 2 * sizeOf e + 2 + c.reserve m ≤ fuel + 1) :
    Settled c (evalRoot (fuel + 1) c e) m := by
  unfold evalRoot
  split
  next n p => exact .after (prompt_slotOf p n) fun _ _ _ => .pure _
  next => exact (ih.eval hc (by omega)).bind fun _ _ _ => .pure _

theorem settled_follow_succ {steps : List Step} (t : Target)
    (h : c.stride + steps.length + c.reserve m ≤ fuel + 1) : Settled c (follow (fuel + 1) c t steps) m := by
  cases steps with
  | nil => exact .pure _
  | cons s rest =>
    rw [List.length_cons] at h
    have hnext : ∀ (t' : Target) (m₁ : Machine), c.reserve m₁ ≤ c.reserve m →
        Settled c (follow fuel c t' rest) m₁ := fun t' m₁ h₁ => ih.follow hc t' (by omega)
    cases s with
    | index key p bracket => exact .after (prompt_enterIndex p t key bracket) hnext
    | property name p => exact .after (prompt_enterProperty p t name) hnext
    | method name arguments p =>
      unfold follow
      dsimp only
      split
      next g hg =>
        have hbody := body_lt_stride (List.mem_of_find?_eq_some hg)
        exact (ih.callFunction hc arguments p (by omega)).bind fun v m₁ h₁ => hnext _ m₁ h₁
      next =>
        refine .after (prompt_read t) fun v m₁ h₁ => ?_
        exact .after (prompt_callBuiltin c p name _ _) fun w m₂ h₂ => hnext _ m₂ (h₂.trans h₁)

theorem settled_assign_succ {target value : Expr} (operator : Option String) (p : Position) (base : Nat)
    (h : 2 * sizeOf (Stmt.assign operator target value p) + 1 + c.reserve m ≤ fuel + 1) :
    Settled c (evalStmt (fuel + 1) c base (.assign operator target value p)) m := by
  have hstride := three_le_stride c
  simp only [Stmt.assign.sizeOf_spec] at h
  cases target with
  | name n q =>
    refine .after_tick hc fun m₁ h₁ => ?_
    refine (ih.eval hc (by omega)).bind fun v m₂ _ => ?_
    refine .after (prompt_slotOf q n) fun i m₃ _ => ?_
    refine .after (prompt_readSlot i) fun slot m₄ _ => ?_
    have hwrite : ∀ m₅, Settled c (do
        let v ← combine operator slot.value v p
        writeSlot i v
        if operator.isSome then checkSize c v p
        return Value.unit) m₅ := by
      intro m₅
      refine .after (prompt_combine p operator _ v) fun v m₆ _ => ?_
      refine .after (prompt_writeSlot i v) fun _ m₇ _ => ?_
      split
      next => exact .after (prompt_checkSize c p v) fun _ _ _ => .pure _
      next => exact .pure _
    dsimp only
    split
    next => exact (Settled.fail _ _).bind fun _ m₅ _ => hwrite m₅
    next => exact hwrite m₄
  | chain root links =>
    simp only [Expr.chain.sizeOf_spec] at h
    refine .after_tick hc fun m₁ h₁ => ?_
    refine (ih.eval hc (by omega)).bind fun v m₂ h₂ => ?_
    refine (ih.evalLinks hc (by omega)).bind_ok fun steps m₃ hsteps h₃ => ?_
    refine (ih.evalRoot hc (by omega)).bind fun t m₄ h₄ => ?_
    refine .after (prompt_isConstant t) fun constant m₅ h₅ => ?_
    have hlength := length_le_sizeOf links
    rw [← length_of_evalLinks hsteps] at hlength
    cases steps.getLast? with
    | some last =>
      have hdrop : steps.dropLast.length = steps.length - 1 := List.length_dropLast
      have hlast : ∀ m₆, c.reserve m₆ ≤ c.reserve m₅ → Settled c (do
          let t ← follow fuel c t steps.dropLast
          assignStep c operator t last v p
          return Value.unit) m₆ := by
        intro m₆ h₆
        refine (ih.follow hc t (by omega)).bind fun t' m₇ _ => ?_
        exact .after (prompt_assignStep c p operator t' last v) fun _ _ _ => .pure _
      dsimp only
      split
      next => exact (Settled.fail _ _).bind fun _ m₆ h₆ => hlast m₆ h₆
      next => exact hlast m₅ le_rfl
    | none =>
      dsimp only
      split
      next => exact (Settled.fail _ _).bind fun _ _ _ => .pure _
      next => exact .pure _
  | _ => exact .pure _

theorem settled_evalStmt_succ {s : Stmt} (base : Nat) (h : 2 * sizeOf s + 1 + c.reserve m ≤ fuel + 1) :
    Settled c (evalStmt (fuel + 1) c base s) m := by
  have hstride := three_le_stride c
  cases s with
  | expr e =>
    simp only [Stmt.expr.sizeOf_spec] at h
    exact ih.eval hc (by omega)
  | declare constant name value p =>
    refine .after_tick hc fun m₁ h₁ => ?_
    cases value with
    | some e =>
      simp only [Stmt.declare.sizeOf_spec, Option.some.sizeOf_spec] at h
      refine (ih.eval hc (by omega)).bind fun v m₂ _ => ?_
      exact .after (prompt_declare base _) fun _ _ _ => .pure _
    | none => exact .after (.pure _) fun v m₂ _ => .after (prompt_declare base _) fun _ _ _ => .pure _
  | assign operator target value p => exact settled_assign_succ ih hc operator p base h
  | block body =>
    simp only [Stmt.block.sizeOf_spec] at h
    exact ih.evalBlock hc (by omega)
  | branch condition yes no =>
    simp only [Stmt.branch.sizeOf_spec] at h
    refine .after_tick hc fun m₁ h₁ => ?_
    refine (ih.evalBool hc (by omega)).bind fun b m₂ h₂ => ?_
    split
    next => exact ih.evalBlock hc (by omega)
    next => exact ih.evalBlock hc (by omega)
  | whileLoop condition body p =>
    simp only [Stmt.whileLoop.sizeOf_spec] at h
    exact ih.whileLoop hc p (by omega)
  | doLoop body condition goOn p =>
    simp only [Stmt.doLoop.sizeOf_spec] at h
    exact ih.doLoop hc goOn p (by omega)
  | forLoop name source body p =>
    simp only [Stmt.forLoop.sizeOf_spec] at h
    refine .after_tick hc fun m₁ h₁ => ?_
    refine (ih.eval hc (by omega)).bind fun v m₂ h₂ => ?_
    split
    next => exact ih.forLoop hc name _ p (by omega)
    next => exact .fail _ _
  | leave value p =>
    refine .after_tick hc fun m₁ h₁ => ?_
    cases value with
    | some e =>
      simp only [Stmt.leave.sizeOf_spec, Option.some.sizeOf_spec] at h
      exact (ih.eval hc (by omega)).bind fun v _ _ => .throw (by simp)
    | none => exact .throw (by simp)
  | proceed p => exact .after_tick hc fun _ _ => .throw (by simp)
  | giveBack value p =>
    refine .after_tick hc fun m₁ h₁ => ?_
    cases value with
    | some e =>
      simp only [Stmt.giveBack.sizeOf_spec, Option.some.sizeOf_spec] at h
      exact (ih.eval hc (by omega)).bind fun v _ _ => .throw (by simp)
    | none => exact .throw (by simp)
  | raise value p =>
    refine .after_tick hc fun m₁ h₁ => ?_
    cases value with
    | some e =>
      simp only [Stmt.raise.sizeOf_spec, Option.some.sizeOf_spec] at h
      exact (ih.eval hc (by omega)).bind fun v _ _ => .fail _ _
    | none => exact .fail _ _
  | attempt body name handler p =>
    simp only [Stmt.attempt.sizeOf_spec] at h
    refine .after_tick hc fun m₁ h₁ => ?_
    refine .rescue (ih.evalBlock hc (by omega)) fun f m₂ h₂ => .handling (.within ?_) f
    cases name with
    | some n => exact .after (prompt_pushSlot _) fun _ m₃ h₃ => ih.evalBlock hc (by omega)
    | none => exact ih.evalBlock hc (by omega)

theorem settled_evalBody_succ {body : List Stmt} (base : Nat)
    (h : 2 * sizeOf body + 1 + c.reserve m ≤ fuel + 1) : Settled c (evalBody (fuel + 1) c base body) m := by
  cases body with
  | nil => exact .pure _
  | cons s rest =>
    simp only [List.cons.sizeOf_spec] at h
    cases rest with
    | nil => exact ih.evalStmt hc base (by omega)
    | cons s' rest =>
      exact (ih.evalStmt hc base (by omega)).bind fun _ m₁ h₁ => ih.evalBody hc base (by omega)

theorem settled_evalBlock_succ {body : List Stmt} (h : 2 * sizeOf body + 2 + c.reserve m ≤ fuel + 1) :
    Settled c (evalBlock (fuel + 1) c body) m :=
  .within (.after .get fun _ m₁ h₁ => ih.evalBody hc _ (by omega))

theorem settled_whileLoop_succ {condition : Option Expr} {body : List Stmt} (p : Position)
    (h : 2 * sizeOf condition + 2 * sizeOf body + 1 + c.reserve m ≤ fuel + 1) :
    Settled c (whileLoop (fuel + 1) c condition body p) m := by
  have hstride := three_le_stride c
  refine .after_tick hc fun m₁ h₁ => ?_
  cases condition
  case' some e =>
    have hsize : sizeOf (some e) = 1 + sizeOf e := Option.some.sizeOf_spec e
    refine (ih.evalBool hc (by omega)).bind fun goOn m₂ h₂ => ?_
  case' none => refine (Settled.pure true).bind fun goOn m₂ h₂ => ?_
  all_goals
    dsimp only
    split
    next =>
      refine (Settled.once (ih.evalBlock hc (by omega))).bind fun left m₃ h₃ => ?_
      cases left with
      | some v => exact .pure _
      | none => exact ih.whileLoop hc p (by omega)
    next => exact .pure _

theorem settled_doLoop_succ {body : List Stmt} {condition : Expr} (goOn : Bool) (p : Position)
    (h : 2 * sizeOf body + 2 * sizeOf condition + 1 + c.reserve m ≤ fuel + 1) :
    Settled c (doLoop (fuel + 1) c body condition goOn p) m := by
  have hstride := three_le_stride c
  refine .after_tick hc fun m₁ h₁ => ?_
  refine (Settled.once (ih.evalBlock hc (by omega))).bind fun left m₂ h₂ => ?_
  split
  next => exact .pure _
  next =>
    refine (ih.evalBool hc (by omega)).bind fun b m₃ h₃ => ?_
    split
    next => exact ih.doLoop hc goOn p (by omega)
    next => exact .pure _

theorem settled_forLoop_succ {body : List Stmt} (name : String) (source : Source) (p : Position)
    (h : 2 * sizeOf body + 1 + c.reserve m ≤ fuel + 1) :
    Settled c (forLoop (fuel + 1) c name source body p) m := by
  have hstride := three_le_stride c
  unfold forLoop
  split
  next => exact .pure _
  next v source' _ =>
    refine .after_tick hc fun m₁ h₁ => ?_
    have hround : Settled c (within do
        pushSlot ⟨name, v, false⟩
        evalBlock fuel c body) m₁ :=
      .within (.after (prompt_pushSlot _) fun _ m₂ h₂ => ih.evalBlock hc (by omega))
    refine (Settled.once hround).bind fun left m₂ h₂ => ?_
    split
    next => exact .pure _
    next => exact ih.forLoop hc name source' p (by omega)

end Step

theorem settling (fuel : Nat) : Settling fuel := by
  -- Each nested step runs a smaller text, or it has counted an operation, which takes a stride off the reserve.
  induction fuel with
  | zero => exact settling_zero
  | succ fuel ih =>
    exact {
      eval := fun hc => settled_eval_succ ih hc
      evalBool := fun hc => settled_evalBool_succ ih hc
      evalAll := fun hc => settled_evalAll_succ ih hc
      evalTemplate := fun hc => settled_evalTemplate_succ ih hc
      evalItems := fun hc => settled_evalItems_succ ih hc
      evalEntries := fun hc => settled_evalEntries_succ ih hc
      invoke := fun hc => settled_invoke_succ ih hc
      callFunction := fun hc => settled_callFunction_succ ih hc
      evalLinks := fun hc => settled_evalLinks_succ ih hc
      evalRoot := fun hc => settled_evalRoot_succ ih hc
      follow := fun hc => settled_follow_succ ih hc
      evalStmt := fun hc => settled_evalStmt_succ ih hc
      evalBody := fun hc => settled_evalBody_succ ih hc
      evalBlock := fun hc => settled_evalBlock_succ ih hc
      whileLoop := fun hc => settled_whileLoop_succ ih hc
      doLoop := fun hc => settled_doLoop_succ ih hc
      forLoop := fun hc => settled_forLoop_succ ih hc }

/-- Under a limit of operations every script comes to an end. -/
theorem execute_ne_exhausted {limits : Limits} (hlimits : limits.maxOperations ≠ 0) (functions : List Function)
    (body : List Stmt) (scope : List Slot) : (execute limits functions body scope).1 ≠ .error .exhausted := by
  intro hexhausted
  let c : Setting := ⟨limits, functions, 0⟩
  let need := 2 * sizeOf body + 1 + c.reserve ⟨scope, 0⟩
  have hsettled : Settled c (evalBody need c scope.length body) ⟨scope, 0⟩ :=
    (settling need).evalBody hlimits scope.length le_rfl
  exact hsettled.ends (execute_exhausted_iff.mp hexhausted need)

/-- Where operations are not limited, an empty loop is never left. -/
theorem whileLoop_exhausted {c : Setting} (hc : c.limits.maxOperations = 0) (fuel : Nat) (p : Position) (m : Machine) :
    (whileLoop fuel c none [] p m).1 = .error .exhausted := by
  induction fuel generalizing m with
  | zero => rfl
  | succ fuel ih =>
    have htick : tick c p m = (.ok (), { m with steps := m.steps + 1 }) := by
      change (if Limits.exceeds c.limits.maxOperations (m.steps + 1) then Script.fail .tooManyOperations p
        else Pure.pure () : Run Unit) { m with steps := m.steps + 1 } = _
      rw [hc]
      rfl
    rw [whileLoop, Ends.bind_of_ok htick]
    rcases fuel with _ | _ | fuel
    · rfl
    · rfl
    · exact ih _

/-- Where operations are not limited, a script that is an empty loop goes on for ever. -/
theorem execute_loop_exhausted {limits : Limits} (hlimits : limits.maxOperations = 0) (functions : List Function)
    (p : Position) (scope : List Slot) :
    (execute limits functions [.whileLoop none [] p] scope).1 = .error .exhausted := by
  refine execute_exhausted_iff.mpr fun fuel => ?_
  rcases fuel with _ | _ | fuel
  · rfl
  · rfl
  · exact whileLoop_exhausted hlimits fuel p _

end Script

end DerivedSignal
