import DerivedSignal.Script.Eval
import DerivedSignal.Proofs.CallNames
import DerivedSignal.Proofs.RunEndings

namespace DerivedSignal

namespace Script

variable {N : String → Prop}

/-- A step into a value calls only functions of `N`. -/
def Step.CallsOnly (N : String → Prop) : Step → Prop
  | .method f _ _ => N f
  | _ => True

/-- A run with so much fuel keeps the variables around it and ends the whole program only in a call of a
function of `N`, as long as the script and its functions call no others. -/
structure Orderly (N : String → Prop) (fuel : Nat) : Prop where
  eval {c : Setting} {e : Expr} (hc : FunctionsCallOnly N c.functions) (he : e.CallsOnly N) (m : Machine) :
    Steady N (eval fuel c e) m
  evalBool {c : Setting} {e : Expr} (hc : FunctionsCallOnly N c.functions) (he : e.CallsOnly N)
    (m : Machine) : Steady N (evalBool fuel c e) m
  evalAll {c : Setting} {es : List Expr} (hc : FunctionsCallOnly N c.functions) (hes : AllCallOnly N es)
    (m : Machine) : Steady N (evalAll fuel c es) m
  evalTemplate {c : Setting} {es : List Expr} (hc : FunctionsCallOnly N c.functions)
    (hes : AllCallOnly N es) (p : Position) (s : String) (m : Machine) :
    Steady N (evalTemplate fuel c es p s) m
  evalItems {c : Setting} {es : List Expr} (hc : FunctionsCallOnly N c.functions) (hes : AllCallOnly N es)
    (before : Value.Extent) (m : Machine) : Steady N (evalItems fuel c es before) m
  evalEntries {c : Setting} {es : List (String × Expr)} (hc : FunctionsCallOnly N c.functions)
    (hes : EntriesCallOnly N es) (before : Value.Extent) (done : NameMap Value) (m : Machine) :
    Steady N (evalEntries fuel c es before done) m
  invoke {c : Setting} {f : String} (hc : FunctionsCallOnly N c.functions) (hf : N f)
    (arguments : List Value) {first : Option Target} {m : Machine} (h : ∀ t ∈ first, t.Visible m.scope)
    (p : Position) : Steady N (invoke fuel c f arguments first p) m
  callFunction {c : Setting} {f : Function} (hc : FunctionsCallOnly N c.functions)
    (hf : BodyCallsOnly N f.body) (arguments : List Value) (p : Position) (m : Machine) :
    Steady N (callFunction fuel c f arguments p) m
  evalLinks {c : Setting} {ls : List Link} (hc : FunctionsCallOnly N c.functions)
    (hls : LinksCallOnly N ls) (m : Machine) :
    Ends N Keeps (fun steps => ∀ s ∈ steps, s.CallsOnly N) (evalLinks fuel c ls) m
  evalRoot {c : Setting} {e : Expr} (hc : FunctionsCallOnly N c.functions) (he : e.CallsOnly N)
    (m : Machine) : Ends N Keeps (Target.Visible m.scope) (evalRoot fuel c e) m
  follow {c : Setting} {steps : List Step} {P : Nat → Prop} {t : Target} {m : Machine}
    (hc : FunctionsCallOnly N c.functions) (hs : ∀ s ∈ steps, s.CallsOnly N) (ht : t.Rooted P)
    (hP : ∀ i, P i → Newest (m.scope.map Slot.label) i) :
    Ends N Keeps (Target.Rooted P) (follow fuel c t steps) m
  evalStmt {c : Setting} {s : Stmt} (hc : FunctionsCallOnly N c.functions) (hs : s.CallsOnly N)
    (base : Nat) (m : Machine) : Confined N base (evalStmt fuel c base s) m
  evalBody {c : Setting} {body : List Stmt} (hc : FunctionsCallOnly N c.functions)
    (hb : BodyCallsOnly N body) (base : Nat) (m : Machine) : Confined N base (evalBody fuel c base body) m
  evalBlock {c : Setting} {body : List Stmt} (hc : FunctionsCallOnly N c.functions)
    (hb : BodyCallsOnly N body) (m : Machine) : Steady N (evalBlock fuel c body) m
  whileLoop {c : Setting} {condition : Option Expr} {body : List Stmt}
    (hc : FunctionsCallOnly N c.functions) (he : OptionCallsOnly N condition) (hb : BodyCallsOnly N body)
    (p : Position) (m : Machine) : Steady N (whileLoop fuel c condition body p) m
  doLoop {c : Setting} {condition : Expr} {body : List Stmt} (hc : FunctionsCallOnly N c.functions)
    (hb : BodyCallsOnly N body) (he : condition.CallsOnly N) (goOn : Bool) (p : Position) (m : Machine) :
    Steady N (doLoop fuel c body condition goOn p) m
  forLoop {c : Setting} {body : List Stmt} (hc : FunctionsCallOnly N c.functions)
    (hb : BodyCallsOnly N body) (name : String) (source : Source) (p : Position) (m : Machine) :
    Steady N (forLoop fuel c name source body p) m

theorem Ends.exhausted {α : Type} {R : List Slot → List Slot → Prop} [IsPreorder _ R] {Q : α → Prop}
    {m : Machine} : Ends N R Q (MonadExcept.throw Interrupt.exhausted : Run α) m :=
  .throw fun _ _ h => by cases h

theorem orderly_zero : Orderly N 0 where
  eval _ _ _ := .exhausted
  evalBool _ _ _ := .exhausted
  evalAll _ _ _ := .exhausted
  evalTemplate _ _ _ _ _ := .exhausted
  evalItems _ _ _ _ := .exhausted
  evalEntries _ _ _ _ _ := .exhausted
  invoke _ _ _ _ _ _ _ := .exhausted
  callFunction _ _ _ _ _ := .exhausted
  evalLinks _ _ _ := .exhausted
  evalRoot _ _ _ := .exhausted
  follow _ _ _ _ := .exhausted
  evalStmt _ _ _ _ := .exhausted
  evalBody _ _ _ _ := .exhausted
  evalBlock _ _ _ := .exhausted
  whileLoop _ _ _ _ _ := .exhausted
  doLoop _ _ _ _ _ _ := .exhausted
  forLoop _ _ _ _ _ _ := .exhausted

section Step

variable {fuel : Nat} (ih : Orderly N fuel) {c : Setting} (hc : FunctionsCallOnly N c.functions)

include ih hc

theorem steady_eval_succ {e : Expr} (he : e.CallsOnly N) (m : Machine) :
    Steady N (eval (fuel + 1) c e) m := by
  cases e with
  | literal v p => exact .pure trivial
  | name n p =>
    refine (quiet_tick c p m).after fun _ m₁ _ _ => ?_
    refine (quiet_slotOf p m₁ n).after fun i m₂ _ _ => ?_
    exact (quiet_readSlot m₂ i).after fun _ _ _ _ => .pure trivial
  | template parts p => exact (ih.evalTemplate hc he p "" m).bind fun _ _ _ _ => .pure trivial
  | array items p => exact (ih.evalItems hc he _ m).bind fun _ _ _ _ => .pure trivial
  | map entries p => exact (ih.evalEntries hc he _ _ m).bind fun _ _ _ _ => .pure trivial
  | both a b p =>
    refine (ih.evalBool hc he.1 m).bind fun x m₁ _ _ => ?_
    split
    next => exact (ih.evalBool hc he.2 m₁).bind fun _ _ _ _ => .pure trivial
    next => exact .pure trivial
  | either a b p =>
    refine (ih.evalBool hc he.1 m).bind fun x m₁ _ _ => ?_
    split
    next => exact .pure trivial
    next => exact (ih.evalBool hc he.2 m₁).bind fun _ _ _ _ => .pure trivial
  | call f arguments p =>
    obtain ⟨hf, harguments⟩ := he
    refine (quiet_tick c p m).after fun _ m₁ _ _ => ?_
    split
    next n q rest =>
      refine (ih.evalAll hc harguments.2 m₁).bind fun vs m₂ _ _ => ?_
      refine (quiet_slotOf q m₂ n).after fun i m₃ hm₃ hi => ?_
      refine (quiet_readSlot m₃ i).after fun slot m₄ hm₄ _ => ?_
      refine ih.invoke hc hf _ (fun t ht => ?_) p
      split at ht
      · cases ht
      · cases ht
        rw [hm₄, hm₃]
        exact hi
    next =>
      refine (ih.evalAll hc harguments m₁).bind fun vs m₂ _ _ => ?_
      exact ih.invoke hc hf _ (fun t ht => by (cases ht)) p
  | chain root links =>
    refine (quiet_tick c root.place m).after fun _ m₁ _ _ => ?_
    refine (ih.evalLinks hc he.2 m₁).bind fun steps m₂ _ hsteps => ?_
    refine (ih.evalRoot hc he.1 m₂).bind fun t m₃ hkeeps ht => ?_
    refine (ih.follow hc hsteps ht fun i hi => ?_).any.bind fun t' m₄ _ _ => ?_
    · rwa [hkeeps.labels]
    · exact (quiet_read t' m₄).quiet
  | statement s p =>
    refine steady_within ((quiet_get m).after fun a m₁ hm ha => ?_)
    subst ha
    rw [← hm]
    exact ih.evalStmt hc he _ m₁

theorem steady_evalBool_succ {e : Expr} (he : e.CallsOnly N) (m : Machine) :
    Steady N (evalBool (fuel + 1) c e) m := by
  refine (ih.eval hc he m).bind fun v m₁ _ _ => ?_
  split
  next => exact .pure trivial
  next => exact .fail _ _

theorem steady_evalAll_succ {es : List Expr} (hes : AllCallOnly N es) (m : Machine) :
    Steady N (evalAll (fuel + 1) c es) m := by
  cases es with
  | nil => exact .pure trivial
  | cons e es =>
    refine (ih.eval hc hes.1 m).bind fun v m₁ _ _ => ?_
    exact (ih.evalAll hc hes.2 m₁).bind fun _ _ _ _ => .pure trivial

theorem steady_evalTemplate_succ {es : List Expr} (hes : AllCallOnly N es) (p : Position) (s : String)
    (m : Machine) : Steady N (evalTemplate (fuel + 1) c es p s) m := by
  cases es with
  | nil => exact .pure trivial
  | cons e es =>
    refine (ih.eval hc hes.1 m).bind fun v m₁ _ _ => ?_
    refine (quiet_checkSize c p m₁ _).after fun _ m₂ _ _ => ?_
    exact ih.evalTemplate hc hes.2 p _ m₂

theorem steady_evalItems_succ {es : List Expr} (hes : AllCallOnly N es) (before : Value.Extent)
    (m : Machine) : Steady N (evalItems (fuel + 1) c es before) m := by
  cases es with
  | nil => exact .pure trivial
  | cons e es =>
    refine (ih.eval hc hes.1 m).bind fun v m₁ _ _ => ?_
    refine (quiet_checkExtent c e.place m₁ _).after fun _ m₂ _ _ => ?_
    exact (ih.evalItems hc hes.2 _ m₂).bind fun _ _ _ _ => .pure trivial

theorem steady_evalEntries_succ {es : List (String × Expr)} (hes : EntriesCallOnly N es)
    (before : Value.Extent) (done : NameMap Value) (m : Machine) :
    Steady N (evalEntries (fuel + 1) c es before done) m := by
  cases es with
  | nil => exact .pure trivial
  | cons entry es =>
    refine (ih.eval hc hes.1 m).bind fun v m₁ _ _ => ?_
    refine (quiet_checkExtent c entry.2.place m₁ _).after fun _ m₂ _ _ => ?_
    exact ih.evalEntries hc hes.2 _ _ m₂

theorem steady_invoke_succ {f : String} (hf : N f) (arguments : List Value) {first : Option Target}
    {m : Machine} (h : ∀ t ∈ first, t.Visible m.scope) (p : Position) :
    Steady N (invoke (fuel + 1) c f arguments first p) m := by
  unfold invoke
  split
  next g hg => exact ih.callFunction hc (hc g (List.mem_of_find?_eq_some hg)) arguments p m
  next => exact steady_callBuiltin p m c hf arguments h

theorem steady_callFunction_succ {f : Function} (hf : BodyCallsOnly N f.body) (arguments : List Value)
    (p : Position) (m : Machine) : Steady N (callFunction (fuel + 1) c f arguments p) m := by
  unfold callFunction
  split
  next => exact .fail _ _
  next =>
    refine steady_called (steady_apart (ih.evalBody ?_ hf 0 _)) f.name p
    exact hc

theorem ends_evalLinks_succ {ls : List Link} (hls : LinksCallOnly N ls) (m : Machine) :
    Ends N Keeps (fun steps => ∀ s ∈ steps, s.CallsOnly N) (evalLinks (fuel + 1) c ls) m := by
  cases ls with
  | nil => exact .pure (by simp)
  | cons l ls =>
    have hrest : ∀ (step : Step) (m₁ : Machine), step.CallsOnly N →
        Ends N Keeps (fun steps => ∀ s ∈ steps, s.CallsOnly N)
          (do return step :: (← evalLinks fuel c ls)) m₁ := by
      intro step m₁ hstep
      refine (ih.evalLinks hc hls.2 m₁).bind fun steps _ _ hsteps => .pure ?_
      exact List.forall_mem_cons.mpr ⟨hstep, hsteps⟩
    cases l with
    | index key bracket =>
      exact (ih.eval hc hls.1 m).bind fun v m₁ _ _ => hrest _ m₁ trivial
    | property name p => exact hrest _ m trivial
    | method name arguments p =>
      exact (ih.evalAll hc hls.1.2 m).bind fun vs m₁ _ _ => hrest _ m₁ hls.1.1

theorem ends_evalRoot_succ {e : Expr} (he : e.CallsOnly N) (m : Machine) :
    Ends N Keeps (Target.Visible m.scope) (evalRoot (fuel + 1) c e) m := by
  unfold evalRoot
  split
  next n p => exact (quiet_slotOf p m n).after fun i _ _ hi => .pure hi
  next => exact (ih.eval hc he m).bind fun v _ _ _ => .pure trivial

theorem ends_follow_succ {steps : List Step} {P : Nat → Prop} {t : Target} {m : Machine}
    (hs : ∀ s ∈ steps, s.CallsOnly N) (ht : t.Rooted P)
    (hP : ∀ i, P i → Newest (m.scope.map Slot.label) i) :
    Ends N Keeps (Target.Rooted P) (follow (fuel + 1) c t steps) m := by
  cases steps with
  | nil => exact .pure ht
  | cons s rest =>
    obtain ⟨hstep, hrest⟩ := List.forall_mem_cons.mp hs
    have hnext : ∀ (t' : Target) (m₁ : Machine), Keeps m.scope m₁.scope → t'.Rooted P →
        Ends N Keeps (Target.Rooted P) (follow fuel c t' rest) m₁ := fun t' m₁ hkeeps ht' =>
      ih.follow hc hrest ht' fun i hi => by
        rw [hkeeps.labels]
        exact hP i hi
    cases s with
    | index key p bracket =>
      exact (quiet_enterIndex t p m key bracket ht).quiet.bind hnext
    | property name p => exact (quiet_enterProperty t p m name ht).quiet.bind fun t' m₁ => hnext t' m₁
    | method name arguments p =>
      unfold follow
      dsimp only
      split
      next g hg =>
        exact (ih.callFunction hc (hc g (List.mem_of_find?_eq_some hg)) arguments p m).bind
          fun v m₁ hkeeps _ => hnext _ m₁ hkeeps trivial
      next =>
        refine (quiet_read t m).after fun v m₁ hm _ => ?_
        refine (steady_callBuiltin p m₁ c hstep _ fun t' ht' => ?_).bind fun w m₂ hkeeps _ =>
          hnext _ m₂ (hm ▸ hkeeps) trivial
        cases ht'
        rw [hm]
        exact ht.imp hP

/-- An assignment gives a new value only to a variable that is no constant and that nothing hides. -/
theorem steady_assign_succ {target value : Expr} (htarget : target.CallsOnly N) (hvalue : value.CallsOnly N)
    (operator : Option String) (p : Position) (base : Nat) (m : Machine) :
    Steady N (evalStmt (fuel + 1) c base (.assign operator target value p)) m := by
  cases target with
  | name n q =>
    refine (quiet_tick c p m).after fun _ m₁ _ _ => ?_
    refine (ih.eval hc hvalue m₁).bind fun v m₂ _ _ => ?_
    refine (quiet_slotOf q m₂ n).after fun i m₃ hm₃ hi => ?_
    refine (quiet_readSlot m₃ i).after fun slot m₄ hm₄ hslot => ?_
    dsimp only
    split
    next => exact .fail_bind _ _
    next hvariable =>
      refine (quiet_combine p m₄ operator _ v).after fun v m₅ hm₅ _ => ?_
      have hfixed : ¬ Fixed (m₅.scope.map Slot.label) i := by
        rw [hm₅, hm₄, hm₃]
        refine not_fixed_of_newest hi ?_
        rw [← hm₃, ← hslot]
        simpa using hvariable
      refine (steady_writeSlot m₅ hfixed v).bind fun _ m₆ _ _ => ?_
      split
      next => exact (quiet_checkSize c p m₆ v).after fun _ _ _ _ => .pure trivial
      next => exact .pure trivial
  | chain root links =>
    refine (quiet_tick c p m).after fun _ m₁ _ _ => ?_
    refine (ih.eval hc hvalue m₁).bind fun v m₂ _ _ => ?_
    refine (ih.evalLinks hc htarget.2 m₂).bind fun steps m₃ _ hsteps => ?_
    refine (ih.evalRoot hc htarget.1 m₃).bind fun t m₄ hkeeps ht => ?_
    have ht : t.Visible m₄.scope := hkeeps.visible ht
    refine (quiet_isConstant t m₄ rfl ht).after fun constant m₅ hm₅ hwritable => ?_
    dsimp only
    split
    next => exact .fail_bind _ _
    next hvariable =>
      have hwritable : t.Writable m₅.scope := by
        rw [hm₅]
        exact hwritable (by simpa using hvariable)
      split
      next last hlast =>
        have hsteps' : ∀ s ∈ steps.dropLast, s.CallsOnly N := fun s hs =>
          hsteps s (List.mem_of_mem_dropLast hs)
        refine (ih.follow hc hsteps' hwritable fun i hi => ?_).bind fun t' m₆ hkeeps ht' => ?_
        · exact newest_of_not_fixed hi
        · refine (steady_assignStep p m₆ c operator (hkeeps.writable ht') last v).bind
            fun _ _ _ _ => .pure trivial
      next => exact .pure trivial
  | _ => exact .pure trivial

theorem confined_evalStmt_succ {s : Stmt} (hs : s.CallsOnly N) (base : Nat) (m : Machine) :
    Confined N base (evalStmt (fuel + 1) c base s) m := by
  cases s with
  | expr e => exact (ih.eval hc hs m).confined base
  | declare constant name value p =>
    refine (quiet_tick c p m).after fun _ m₁ _ _ => ?_
    cases value with
    | some e =>
      refine ((ih.eval hc hs m₁).confined base).bind fun v m₂ _ _ => ?_
      exact (confined_declare base _ m₂).bind fun _ _ _ _ => .pure trivial
    | none => exact (confined_declare base _ m₁).bind fun _ _ _ _ => .pure trivial
  | assign operator target value p =>
    exact (steady_assign_succ ih hc hs.1 hs.2 operator p base m).confined base
  | block body => exact (ih.evalBlock hc hs m).confined base
  | branch condition yes no =>
    refine Ends.confined ?_ base
    refine (quiet_tick c condition.place m).after fun _ m₁ _ _ => ?_
    refine (ih.evalBool hc hs.1 m₁).bind fun b m₂ _ _ => ?_
    split
    next => exact ih.evalBlock hc hs.2.1 m₂
    next => exact ih.evalBlock hc hs.2.2 m₂
  | whileLoop condition body p => exact (ih.whileLoop hc hs.1 hs.2 p m).confined base
  | doLoop body condition goOn p => exact (ih.doLoop hc hs.1 hs.2 goOn p m).confined base
  | forLoop name source body p =>
    refine Ends.confined ?_ base
    refine (quiet_tick c p m).after fun _ m₁ _ _ => ?_
    refine (ih.eval hc hs.1 m₁).bind fun v m₂ _ _ => ?_
    split
    next => exact ih.forLoop hc hs.2 name _ p m₂
    next => exact .fail _ _
  | leave value p =>
    refine Ends.confined ?_ base
    refine (quiet_tick c p m).after fun _ m₁ _ _ => ?_
    cases value with
    | some e =>
      exact (ih.eval hc hs m₁).bind fun v _ _ _ => .throw fun _ _ h => by cases h
    | none => exact .throw fun _ _ h => by cases h
  | proceed p =>
    refine Ends.confined ?_ base
    exact (quiet_tick c p m).after fun _ m₁ _ _ => .throw fun _ _ h => by cases h
  | giveBack value p =>
    refine Ends.confined ?_ base
    refine (quiet_tick c p m).after fun _ m₁ _ _ => ?_
    cases value with
    | some e =>
      exact (ih.eval hc hs m₁).bind fun v _ _ _ => .throw fun _ _ h => by cases h
    | none => exact .throw fun _ _ h => by cases h
  | raise value p =>
    refine Ends.confined ?_ base
    refine (quiet_tick c p m).after fun _ m₁ _ _ => ?_
    cases value with
    | some e => exact (ih.eval hc hs m₁).bind fun v _ _ _ => .fail _ _
    | none => exact .fail _ _
  | attempt body name handler p =>
    refine Ends.confined ?_ base
    refine (quiet_tick c p m).after fun _ m₁ _ _ => ?_
    refine steady_rescue (ih.evalBlock hc hs.1 m₁) fun f m₂ => steady_handling (steady_within ?_) f
    cases name with
    | some n =>
      refine (confined_pushSlot _ _ m₂).bind fun _ m₃ _ _ => ?_
      exact (ih.evalBlock hc hs.2 m₃).confined _
    | none => exact (ih.evalBlock hc hs.2 m₂).confined _

theorem confined_evalBody_succ {body : List Stmt} (hb : BodyCallsOnly N body) (base : Nat) (m : Machine) :
    Confined N base (evalBody (fuel + 1) c base body) m := by
  cases body with
  | nil => exact .pure trivial
  | cons s rest =>
    cases rest with
    | nil => exact ih.evalStmt hc hb.1 base m
    | cons s' rest =>
      exact (ih.evalStmt hc hb.1 base m).bind fun _ m₁ _ _ => ih.evalBody hc hb.2 base m₁

theorem steady_evalBlock_succ {body : List Stmt} (hb : BodyCallsOnly N body) (m : Machine) :
    Steady N (evalBlock (fuel + 1) c body) m := by
  refine steady_within ((quiet_get m).after fun a m₁ hm ha => ?_)
  subst ha
  rw [← hm]
  exact ih.evalBody hc hb _ m₁

theorem steady_whileLoop_succ {condition : Option Expr} {body : List Stmt}
    (he : OptionCallsOnly N condition) (hb : BodyCallsOnly N body) (p : Position) (m : Machine) :
    Steady N (whileLoop (fuel + 1) c condition body p) m := by
  refine (quiet_tick c p m).after fun _ m₁ _ _ => ?_
  cases condition
  case' some e => refine (ih.evalBool hc he m₁).bind fun goOn m₂ _ _ => ?_
  case' none => refine (Ends.pure (Q := fun _ => True) (a := true) trivial).bind fun goOn m₂ _ _ => ?_
  all_goals
    dsimp only
    split
    next =>
      refine (steady_once (ih.evalBlock hc hb m₂)).bind fun left m₃ _ _ => ?_
      split
      next => exact .pure trivial
      next => exact ih.whileLoop hc he hb p m₃
    next => exact .pure trivial

theorem steady_doLoop_succ {condition : Expr} {body : List Stmt} (hb : BodyCallsOnly N body)
    (he : condition.CallsOnly N) (goOn : Bool) (p : Position) (m : Machine) :
    Steady N (doLoop (fuel + 1) c body condition goOn p) m := by
  refine (quiet_tick c p m).after fun _ m₁ _ _ => ?_
  refine (steady_once (ih.evalBlock hc hb m₁)).bind fun left m₂ _ _ => ?_
  split
  next => exact .pure trivial
  next =>
    refine (ih.evalBool hc he m₂).bind fun b m₃ _ _ => ?_
    split
    next => exact ih.doLoop hc hb he goOn p m₃
    next => exact .pure trivial

theorem steady_forLoop_succ {body : List Stmt} (hb : BodyCallsOnly N body) (name : String)
    (source : Source) (p : Position) (m : Machine) :
    Steady N (forLoop (fuel + 1) c name source body p) m := by
  unfold forLoop
  split
  next => exact .pure trivial
  next v source' _ =>
    refine (quiet_tick c p m).after fun _ m₁ _ _ => ?_
    have hround : Steady N (within do
        pushSlot ⟨name, v, false⟩
        evalBlock fuel c body) m₁ :=
      steady_within ((confined_pushSlot _ _ m₁).bind fun _ m₂ _ _ => (ih.evalBlock hc hb m₂).confined _)
    refine (steady_once hround).bind fun left m₂ _ _ => ?_
    split
    next => exact .pure trivial
    next => exact ih.forLoop hc hb name source' p m₂

end Step

theorem orderly (N : String → Prop) (fuel : Nat) : Orderly N fuel := by
  induction fuel with
  | zero => exact orderly_zero
  | succ fuel ih =>
    exact {
      eval := fun hc => steady_eval_succ ih hc
      evalBool := fun hc => steady_evalBool_succ ih hc
      evalAll := fun hc => steady_evalAll_succ ih hc
      evalTemplate := fun hc => steady_evalTemplate_succ ih hc
      evalItems := fun hc => steady_evalItems_succ ih hc
      evalEntries := fun hc => steady_evalEntries_succ ih hc
      invoke := fun hc => steady_invoke_succ ih hc
      callFunction := fun hc => steady_callFunction_succ ih hc
      evalLinks := fun hc => ends_evalLinks_succ ih hc
      evalRoot := fun hc => ends_evalRoot_succ ih hc
      follow := fun hc => ends_follow_succ ih hc
      evalStmt := fun hc => confined_evalStmt_succ ih hc
      evalBody := fun hc => confined_evalBody_succ ih hc
      evalBlock := fun hc => steady_evalBlock_succ ih hc
      whileLoop := fun hc => steady_whileLoop_succ ih hc
      doLoop := fun hc => steady_doLoop_succ ih hc
      forLoop := fun hc => steady_forLoop_succ ih hc }

section Execute

variable {limits : Limits} {functions : List Function} {body : List Stmt} {scope : List Slot}

/-- The variables that a script finds are still there when it ends, in whatever way it does. -/
theorem execute_keeps : Keeps scope (oldest scope.length (execute limits functions body scope).2) := by
  obtain ⟨fuel, hfuel⟩ := exists_ending fun fuel =>
    evalBody fuel ⟨limits, functions, 0⟩ scope.length body ⟨scope, 0⟩
  have hends := (orderly (fun _ => True) fuel).evalBody (c := ⟨limits, functions, 0⟩)
    (fun f _ => bodyCallsOnly_true f.body) (bodyCallsOnly_true body) scope.length ⟨scope, 0⟩
  have hkeeps := hends.scope.keeps
  rw [← hfuel] at hkeeps
  unfold execute
  split
  next v m hr => rwa [hr] at hkeeps
  next r m _ hr => rwa [hr] at hkeeps

/-- A script ends the whole program only in a call of one of its functions outside its domain. -/
theorem call?_of_execute (hf : FunctionsCallOnly N functions) (hb : BodyCallsOnly N body) {f : String}
    {arguments : List Value} (h : (execute limits functions body scope).1 = .error (.abort f arguments)) :
    N f ∧ Builtin.call? f arguments = some .abort := by
  obtain ⟨fuel, hfuel⟩ := exists_ending fun fuel =>
    evalBody fuel ⟨limits, functions, 0⟩ scope.length body ⟨scope, 0⟩
  have hends := (orderly N fuel).evalBody (c := ⟨limits, functions, 0⟩) hf hb scope.length ⟨scope, 0⟩
  unfold execute at h
  split at h
  next v m hr => cases h
  next r m _ hr => exact hends.abort f arguments (by rw [← hfuel, hr]; exact h)

end Execute

end Script

end DerivedSignal
