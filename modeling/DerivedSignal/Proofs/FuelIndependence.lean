import DerivedSignal.Proofs.RunEndings
import DerivedSignal.Script.Eval

namespace DerivedSignal

namespace Script

/-- The second computation does what the first one does, and goes on where that one runs out of fuel. -/
def Extends {α : Type} (r r' : Run α) : Prop := ∀ m, (r m).1 = .error .exhausted ∨ r' m = r m

namespace Extends

variable {α β : Type} {r r' r'' : Run α}

theorem refl (r : Run α) : Extends r r := fun _ => .inr rfl

theorem exhausted (r : Run α) : Extends (throw .exhausted) r := fun _ => .inl rfl

theorem trans (h : Extends r r') (h' : Extends r' r'') : Extends r r'' := by
  intro m
  rcases h m with hr | hr
  · exact .inl hr
  · rw [← hr]
    exact h' m

theorem bind {k k' : α → Run β} (h : Extends r r') (hk : ∀ a, Extends (k a) (k' a)) :
    Extends (r >>= k) (r' >>= k') := by
  intro m
  rcases hm : r m with ⟨e | a, m'⟩
  · rcases h m with hr | hr
    · rw [hm] at hr
      cases hr
      exact .inl (congrArg Prod.fst (Ends.bind_of_error (k := k) hm))
    · right
      rw [Ends.bind_of_error hm, Ends.bind_of_error (hr.trans hm)]
  · rcases h m with hr | hr
    · rw [hm] at hr
      cases hr
    · rw [Ends.bind_of_ok hm, Ends.bind_of_ok (hr.trans hm)]
      exact hk a m'

theorem after {k k' : α → Run β} (hk : ∀ a, Extends (k a) (k' a)) : Extends (r >>= k) (r >>= k') :=
  (refl r).bind hk

theorem within (h : Extends r r') : Extends (Script.within r) (Script.within r') := by
  intro m
  rcases h m with hr | hr
  · exact .inl hr
  · exact .inr (by simp only [Script.within, hr])

theorem apart (h : Extends r r') (scope : List Slot) : Extends (Script.apart scope r) (Script.apart scope r') := by
  intro m
  rcases h { m with scope } with hr | hr
  · exact .inl hr
  · exact .inr (by simp only [Script.apart, hr])

section Handlers

variable {r r' : Run Value}

theorem called (h : Extends r r') (name : String) (p : Position) :
    Extends (Script.called name p r) (Script.called name p r') := by
  intro m
  rcases h m with hr | hr
  · left
    unfold Script.called
    split <;> simp_all
  · exact .inr (by simp only [Script.called, hr])

theorem once (h : Extends r r') : Extends (Script.once r) (Script.once r') := by
  intro m
  rcases h m with hr | hr
  · left
    unfold Script.once
    split <;> simp_all
  · exact .inr (by simp only [Script.once, hr])

theorem handling (h : Extends r r') (f : Failure) : Extends (Script.handling f r) (Script.handling f r') := by
  intro m
  rcases h m with hr | hr
  · left
    unfold Script.handling
    split <;> simp_all
  · exact .inr (by simp only [Script.handling, hr])

theorem rescue {handler handler' : Failure → Run Value} (h : Extends r r')
    (hhandler : ∀ f, Extends (handler f) (handler' f)) :
    Extends (Script.rescue r handler) (Script.rescue r' handler') := by
  intro m
  rcases h m with hr | hr
  · left
    unfold Script.rescue
    split <;> simp_all
  · simp only [Script.rescue, hr]
    split
    next f m' _ =>
      split
      next => exact .inr rfl
      next => exact hhandler f m'
    next => exact .inr rfl

end Handlers

end Extends

/-- One more unit of fuel changes no run that does not run out of fuel. -/
structure Growing (fuel : Nat) : Prop where
  eval (c : Setting) (e : Expr) : Extends (eval fuel c e) (eval (fuel + 1) c e)
  evalBool (c : Setting) (e : Expr) : Extends (evalBool fuel c e) (evalBool (fuel + 1) c e)
  evalAll (c : Setting) (es : List Expr) : Extends (evalAll fuel c es) (evalAll (fuel + 1) c es)
  evalTemplate (c : Setting) (es : List Expr) (p : Position) (s : String) :
    Extends (evalTemplate fuel c es p s) (evalTemplate (fuel + 1) c es p s)
  evalItems (c : Setting) (es : List Expr) (before : Value.Extent) :
    Extends (evalItems fuel c es before) (evalItems (fuel + 1) c es before)
  evalEntries (c : Setting) (es : List (String × Expr)) (before : Value.Extent) (done : NameMap Value) :
    Extends (evalEntries fuel c es before done) (evalEntries (fuel + 1) c es before done)
  invoke (c : Setting) (name : String) (arguments : List Value) (first : Option Target) (p : Position) :
    Extends (invoke fuel c name arguments first p) (invoke (fuel + 1) c name arguments first p)
  callFunction (c : Setting) (f : Function) (arguments : List Value) (p : Position) :
    Extends (callFunction fuel c f arguments p) (callFunction (fuel + 1) c f arguments p)
  evalLinks (c : Setting) (ls : List Link) : Extends (evalLinks fuel c ls) (evalLinks (fuel + 1) c ls)
  evalRoot (c : Setting) (e : Expr) : Extends (evalRoot fuel c e) (evalRoot (fuel + 1) c e)
  follow (c : Setting) (t : Target) (steps : List Step) :
    Extends (follow fuel c t steps) (follow (fuel + 1) c t steps)
  evalStmt (c : Setting) (base : Nat) (s : Stmt) : Extends (evalStmt fuel c base s) (evalStmt (fuel + 1) c base s)
  evalBody (c : Setting) (base : Nat) (body : List Stmt) :
    Extends (evalBody fuel c base body) (evalBody (fuel + 1) c base body)
  evalBlock (c : Setting) (body : List Stmt) : Extends (evalBlock fuel c body) (evalBlock (fuel + 1) c body)
  whileLoop (c : Setting) (condition : Option Expr) (body : List Stmt) (p : Position) :
    Extends (whileLoop fuel c condition body p) (whileLoop (fuel + 1) c condition body p)
  doLoop (c : Setting) (body : List Stmt) (condition : Expr) (goOn : Bool) (p : Position) :
    Extends (doLoop fuel c body condition goOn p) (doLoop (fuel + 1) c body condition goOn p)
  forLoop (c : Setting) (name : String) (source : Source) (body : List Stmt) (p : Position) :
    Extends (forLoop fuel c name source body p) (forLoop (fuel + 1) c name source body p)

theorem growing_zero : Growing 0 where
  eval _ _ := .exhausted _
  evalBool _ _ := .exhausted _
  evalAll _ _ := .exhausted _
  evalTemplate _ _ _ _ := .exhausted _
  evalItems _ _ _ := .exhausted _
  evalEntries _ _ _ _ := .exhausted _
  invoke _ _ _ _ _ := .exhausted _
  callFunction _ _ _ _ := .exhausted _
  evalLinks _ _ := .exhausted _
  evalRoot _ _ := .exhausted _
  follow _ _ _ := .exhausted _
  evalStmt _ _ _ := .exhausted _
  evalBody _ _ _ := .exhausted _
  evalBlock _ _ := .exhausted _
  whileLoop _ _ _ _ := .exhausted _
  doLoop _ _ _ _ _ := .exhausted _
  forLoop _ _ _ _ _ := .exhausted _

section Step

variable {fuel : Nat} (ih : Growing fuel) (c : Setting)

include ih

theorem extends_eval (e : Expr) : Extends (eval (fuel + 1) c e) (eval (fuel + 2) c e) := by
  cases e with
  | literal v p => exact .refl _
  | name n p => exact .refl _
  | template parts p => exact (ih.evalTemplate c parts p "").bind fun _ => .refl _
  | array items p => exact (ih.evalItems c items _).bind fun _ => .refl _
  | map entries p => exact (ih.evalEntries c entries _ _).bind fun _ => .refl _
  | both a b p =>
    refine (ih.evalBool c a).bind fun x => ?_
    cases x with
    | true => exact (ih.evalBool c b).bind fun _ => .refl _
    | false => exact .refl _
  | either a b p =>
    refine (ih.evalBool c a).bind fun x => ?_
    cases x with
    | true => exact .refl _
    | false => exact (ih.evalBool c b).bind fun _ => .refl _
  | call f arguments p =>
    refine .after fun _ => ?_
    split
    next n q rest =>
      refine (ih.evalAll c rest).bind fun vs => ?_
      exact .after fun i => .after fun slot => ih.invoke c f _ _ p
    next => exact (ih.evalAll c arguments).bind fun vs => ih.invoke c f vs none p
  | chain root links =>
    refine .after fun _ => ?_
    refine (ih.evalLinks c links).bind fun steps => ?_
    refine (ih.evalRoot c root).bind fun t => ?_
    exact (ih.follow c t steps).bind fun _ => .refl _
  | statement s p =>
    exact .within (Extends.after (r := (get : Run Machine)) fun m => ih.evalStmt c m.scope.length s)

theorem extends_evalBool (e : Expr) : Extends (evalBool (fuel + 1) c e) (evalBool (fuel + 2) c e) :=
  (ih.eval c e).bind fun _ => .refl _

theorem extends_evalAll (es : List Expr) : Extends (evalAll (fuel + 1) c es) (evalAll (fuel + 2) c es) := by
  cases es with
  | nil => exact .refl _
  | cons e es => exact (ih.eval c e).bind fun _ => (ih.evalAll c es).bind fun _ => .refl _

theorem extends_evalTemplate (es : List Expr) (p : Position) (s : String) :
    Extends (evalTemplate (fuel + 1) c es p s) (evalTemplate (fuel + 2) c es p s) := by
  cases es with
  | nil => exact .refl _
  | cons e es => exact (ih.eval c e).bind fun v => .after fun _ => ih.evalTemplate c es p _

theorem extends_evalItems (es : List Expr) (before : Value.Extent) :
    Extends (evalItems (fuel + 1) c es before) (evalItems (fuel + 2) c es before) := by
  cases es with
  | nil => exact .refl _
  | cons e es =>
    refine (ih.eval c e).bind fun v => .after fun _ => ?_
    exact (ih.evalItems c es _).bind fun _ => .refl _

theorem extends_evalEntries (es : List (String × Expr)) (before : Value.Extent) (done : NameMap Value) :
    Extends (evalEntries (fuel + 1) c es before done) (evalEntries (fuel + 2) c es before done) := by
  cases es with
  | nil => exact .refl _
  | cons entry es => exact (ih.eval c entry.2).bind fun v => .after fun _ => ih.evalEntries c es _ _

theorem extends_invoke (name : String) (arguments : List Value) (first : Option Target) (p : Position) :
    Extends (invoke (fuel + 1) c name arguments first p) (invoke (fuel + 2) c name arguments first p) := by
  unfold invoke
  split
  next f _ => exact ih.callFunction c f arguments p
  next => exact .refl _

theorem extends_callFunction (f : Function) (arguments : List Value) (p : Position) :
    Extends (callFunction (fuel + 1) c f arguments p) (callFunction (fuel + 2) c f arguments p) := by
  unfold callFunction
  split
  next => exact .refl _
  next => exact ((ih.evalBody _ 0 f.body).apart _).called f.name p

theorem extends_evalLinks (ls : List Link) : Extends (evalLinks (fuel + 1) c ls) (evalLinks (fuel + 2) c ls) := by
  cases ls with
  | nil => exact .refl _
  | cons l ls =>
    have hrest : ∀ step : Step, Extends (do return step :: (← evalLinks fuel c ls))
        (do return step :: (← evalLinks (fuel + 1) c ls)) :=
      fun step => (ih.evalLinks c ls).bind fun _ => .refl _
    cases l with
    | index key bracket => exact (ih.eval c key).bind fun _ => hrest _
    | property name p => exact hrest _
    | method name arguments p => exact (ih.evalAll c arguments).bind fun _ => hrest _

theorem extends_evalRoot (e : Expr) : Extends (evalRoot (fuel + 1) c e) (evalRoot (fuel + 2) c e) := by
  unfold evalRoot
  split
  next => exact .refl _
  next => exact (ih.eval c e).bind fun _ => .refl _

theorem extends_follow (t : Target) (steps : List Step) :
    Extends (follow (fuel + 1) c t steps) (follow (fuel + 2) c t steps) := by
  cases steps with
  | nil => exact .refl _
  | cons s rest =>
    have hnext : ∀ t' : Target, Extends (follow fuel c t' rest) (follow (fuel + 1) c t' rest) :=
      fun t' => ih.follow c t' rest
    cases s with
    | index key p bracket => exact .after hnext
    | property name p => exact .after hnext
    | method name arguments p =>
      unfold follow
      dsimp only
      split
      next f _ => exact (ih.callFunction c f arguments p).bind fun _ => hnext _
      next => exact .after fun _ => .after fun _ => hnext _

theorem extends_assign (base : Nat) (operator : Option String) (target value : Expr) (p : Position) :
    Extends (evalStmt (fuel + 1) c base (.assign operator target value p))
      (evalStmt (fuel + 2) c base (.assign operator target value p)) := by
  cases target with
  | name n q => exact .after fun _ => (ih.eval c value).bind fun _ => .refl _
  | chain root links =>
    refine .after fun _ => ?_
    refine (ih.eval c value).bind fun v => ?_
    refine (ih.evalLinks c links).bind fun steps => ?_
    refine (ih.evalRoot c root).bind fun t => .after fun constant => ?_
    cases steps.getLast? with
    | some last =>
      have hfollow := (ih.follow c t steps.dropLast).bind fun t' => .refl (do
        assignStep c operator t' last v p
        return Value.unit)
      dsimp only
      split
      next => exact .after fun _ => hfollow
      next => exact hfollow
    | none => exact .refl _
  | _ => exact .refl _

theorem extends_evalStmt (base : Nat) (s : Stmt) :
    Extends (evalStmt (fuel + 1) c base s) (evalStmt (fuel + 2) c base s) := by
  cases s with
  | expr e => exact ih.eval c e
  | declare constant name value p =>
    refine .after fun _ => ?_
    cases value with
    | some e => exact (ih.eval c e).bind fun _ => .refl _
    | none => exact .refl _
  | assign operator target value p => exact extends_assign ih c base operator target value p
  | block body => exact ih.evalBlock c body
  | branch condition yes no =>
    refine .after fun _ => (ih.evalBool c condition).bind fun b => ?_
    cases b with
    | true => exact ih.evalBlock c yes
    | false => exact ih.evalBlock c no
  | whileLoop condition body p => exact ih.whileLoop c condition body p
  | doLoop body condition goOn p => exact ih.doLoop c body condition goOn p
  | forLoop name source body p =>
    refine .after fun _ => (ih.eval c source).bind fun v => ?_
    split
    next source' _ => exact ih.forLoop c name source' body p
    next => exact .refl _
  | leave value p =>
    refine .after fun _ => ?_
    cases value with
    | some e => exact (ih.eval c e).bind fun _ => .refl _
    | none => exact .refl _
  | proceed p => exact .refl _
  | giveBack value p =>
    refine .after fun _ => ?_
    cases value with
    | some e => exact (ih.eval c e).bind fun _ => .refl _
    | none => exact .refl _
  | raise value p =>
    refine .after fun _ => ?_
    cases value with
    | some e => exact (ih.eval c e).bind fun _ => .refl _
    | none => exact .refl _
  | attempt body name handler p =>
    refine .after fun _ => .rescue (ih.evalBlock c body) fun f => .handling (.within ?_) f
    cases name with
    | some n => exact .after fun _ => ih.evalBlock c handler
    | none => exact ih.evalBlock c handler

theorem extends_evalBody (base : Nat) (body : List Stmt) :
    Extends (evalBody (fuel + 1) c base body) (evalBody (fuel + 2) c base body) := by
  cases body with
  | nil => exact .refl _
  | cons s rest =>
    cases rest with
    | nil => exact ih.evalStmt c base s
    | cons s' rest => exact (ih.evalStmt c base s).bind fun _ => ih.evalBody c base (s' :: rest)

theorem extends_evalBlock (body : List Stmt) :
    Extends (evalBlock (fuel + 1) c body) (evalBlock (fuel + 2) c body) :=
  .within (Extends.after (r := (get : Run Machine)) fun m => ih.evalBody c m.scope.length body)

theorem extends_whileLoop (condition : Option Expr) (body : List Stmt) (p : Position) :
    Extends (whileLoop (fuel + 1) c condition body p) (whileLoop (fuel + 2) c condition body p) := by
  refine .after fun _ => ?_
  cases condition
  case' some e => refine (ih.evalBool c e).bind fun goOn => ?_
  case' none => refine .after fun goOn => ?_
  all_goals
    dsimp only
    split
    next =>
      refine (ih.evalBlock c body).once.bind fun left => ?_
      cases left with
      | some v => exact .refl _
      | none => exact ih.whileLoop c _ body p
    next => exact .refl _

theorem extends_doLoop (body : List Stmt) (condition : Expr) (goOn : Bool) (p : Position) :
    Extends (doLoop (fuel + 1) c body condition goOn p) (doLoop (fuel + 2) c body condition goOn p) := by
  refine .after fun _ => (ih.evalBlock c body).once.bind fun left => ?_
  cases left with
  | some v => exact .refl _
  | none =>
    refine (ih.evalBool c condition).bind fun b => ?_
    split
    next => exact ih.doLoop c body condition goOn p
    next => exact .refl _

theorem extends_forLoop (name : String) (source : Source) (body : List Stmt) (p : Position) :
    Extends (forLoop (fuel + 1) c name source body p) (forLoop (fuel + 2) c name source body p) := by
  unfold forLoop
  split
  next => exact .refl _
  next v source' _ =>
    refine .after fun _ => ?_
    have hround := Extends.within (Extends.after (r := pushSlot ⟨name, v, false⟩) fun _ => ih.evalBlock c body)
    refine hround.once.bind fun left => ?_
    cases left with
    | some v => exact .refl _
    | none => exact ih.forLoop c name source' body p

end Step

theorem growing (fuel : Nat) : Growing fuel := by
  induction fuel with
  | zero => exact growing_zero
  | succ fuel ih =>
    exact {
      eval := extends_eval ih
      evalBool := extends_evalBool ih
      evalAll := extends_evalAll ih
      evalTemplate := extends_evalTemplate ih
      evalItems := extends_evalItems ih
      evalEntries := extends_evalEntries ih
      invoke := extends_invoke ih
      callFunction := extends_callFunction ih
      evalLinks := extends_evalLinks ih
      evalRoot := extends_evalRoot ih
      follow := extends_follow ih
      evalStmt := extends_evalStmt ih
      evalBody := extends_evalBody ih
      evalBlock := extends_evalBlock ih
      whileLoop := extends_whileLoop ih
      doLoop := extends_doLoop ih
      forLoop := extends_forLoop ih }

theorem evalBody_extends {fuel fuel' : Nat} (h : fuel ≤ fuel') (c : Setting) (base : Nat) (body : List Stmt) :
    Extends (evalBody fuel c base body) (evalBody fuel' c base body) := by
  induction h with
  | refl => exact .refl _
  | step _ ih => exact ih.trans ((growing _).evalBody c base body)

section Ending

variable {limits : Limits} {functions : List Function} {body : List Stmt} {scope : List Slot}

/-- Any fuel that is enough gives the end of a run. -/
theorem ending_eq {c : Setting} {base fuel : Nat} {m : Machine}
    (h : (evalBody fuel c base body m).1 ≠ .error .exhausted) :
    (ending fun fuel => evalBody fuel c base body m) = evalBody fuel c base body m := by
  have hmore : ∀ {more}, fuel ≤ more → evalBody more c base body m = evalBody fuel c base body m :=
    fun hle => (evalBody_extends hle c base body m).resolve_left h
  -- The end comes with some fuel, and both that and `fuel` agree with the greater of the two.
  obtain ⟨found, hfound⟩ := exists_ending fun fuel => evalBody fuel c base body m
  have hends : (ending fun fuel => evalBody fuel c base body m).1 ≠ .error .exhausted :=
    ending_ne_exhausted fun more hle => by rwa [hmore hle]
  rw [hfound] at hends ⊢
  have hboth := evalBody_extends (Nat.le_max_right fuel found) c base body m
  rw [← hboth.resolve_left hends, hmore (Nat.le_max_left fuel found)]

/-- Statements go on for ever just if no fuel is enough for them. -/
theorem execute_exhausted_iff : (execute limits functions body scope).1 = .error .exhausted ↔
    ∀ fuel, (evalBody fuel ⟨limits, functions, 0⟩ scope.length body ⟨scope, 0⟩).1 = .error .exhausted := by
  have hexecute : (execute limits functions body scope).1 = .error .exhausted ↔
      (ending fun fuel => evalBody fuel ⟨limits, functions, 0⟩ scope.length body ⟨scope, 0⟩).1 =
        .error .exhausted := by
    unfold execute
    split
    next hr => rw [hr]; simp
    next hr => rw [hr]
  rw [hexecute]
  refine ⟨fun hends fuel => ?_, ending_exhausted⟩
  by_contra hfuel
  exact hfuel ((ending_eq hfuel) ▸ hends)

end Ending

end Script

end DerivedSignal
