import DerivedSignal.Script.Simplify

namespace DerivedSignal

namespace Script

mutual

/-- An expression calls only functions of `N`. -/
def Expr.CallsOnly (N : String → Prop) : Expr → Prop
  | .literal _ _ | .name _ _ => True
  | .template parts _ => AllCallOnly N parts
  | .array items _ => AllCallOnly N items
  | .map entries _ => EntriesCallOnly N entries
  | .both a b _ | .either a b _ => a.CallsOnly N ∧ b.CallsOnly N
  | .call f arguments _ => N f ∧ AllCallOnly N arguments
  | .chain root links => root.CallsOnly N ∧ LinksCallOnly N links
  | .statement s _ => s.CallsOnly N

/-- Some expressions call only functions of `N`. -/
def AllCallOnly (N : String → Prop) : List Expr → Prop
  | [] => True
  | e :: es => e.CallsOnly N ∧ AllCallOnly N es

/-- The entries of a map call only functions of `N`. -/
def EntriesCallOnly (N : String → Prop) : List (String × Expr) → Prop
  | [] => True
  | (_, e) :: rest => e.CallsOnly N ∧ EntriesCallOnly N rest

/-- An expression calls only functions of `N`, if there is one. -/
def OptionCallsOnly (N : String → Prop) : Option Expr → Prop
  | none => True
  | some e => e.CallsOnly N

/-- A link calls only functions of `N`. -/
def Link.CallsOnly (N : String → Prop) : Link → Prop
  | .index key _ => key.CallsOnly N
  | .property _ _ => True
  | .method f arguments _ => N f ∧ AllCallOnly N arguments

/-- Some links call only functions of `N`. -/
def LinksCallOnly (N : String → Prop) : List Link → Prop
  | [] => True
  | l :: ls => l.CallsOnly N ∧ LinksCallOnly N ls

/-- A statement calls only functions of `N`. -/
def Stmt.CallsOnly (N : String → Prop) : Stmt → Prop
  | .expr e => e.CallsOnly N
  | .declare _ _ value _ => OptionCallsOnly N value
  | .assign _ target value _ => target.CallsOnly N ∧ value.CallsOnly N
  | .block body => BodyCallsOnly N body
  | .branch condition yes no => condition.CallsOnly N ∧ BodyCallsOnly N yes ∧ BodyCallsOnly N no
  | .whileLoop condition body _ => OptionCallsOnly N condition ∧ BodyCallsOnly N body
  | .doLoop body condition _ _ => BodyCallsOnly N body ∧ condition.CallsOnly N
  | .forLoop _ source body _ => source.CallsOnly N ∧ BodyCallsOnly N body
  | .leave value _ | .giveBack value _ | .raise value _ => OptionCallsOnly N value
  | .proceed _ => True
  | .attempt body _ handler _ => BodyCallsOnly N body ∧ BodyCallsOnly N handler

/-- Some statements call only functions of `N`. -/
def BodyCallsOnly (N : String → Prop) : List Stmt → Prop
  | [] => True
  | s :: rest => s.CallsOnly N ∧ BodyCallsOnly N rest

end

mutual

theorem Expr.callsOnly_true : ∀ e : Expr, e.CallsOnly fun _ => True
  | .literal _ _ | .name _ _ => trivial
  | .template parts _ => allCallOnly_true parts
  | .array items _ => allCallOnly_true items
  | .map entries _ => entriesCallOnly_true entries
  | .both a b _ | .either a b _ => ⟨a.callsOnly_true, b.callsOnly_true⟩
  | .call _ arguments _ => ⟨trivial, allCallOnly_true arguments⟩
  | .chain root links => ⟨root.callsOnly_true, linksCallOnly_true links⟩
  | .statement s _ => s.callsOnly_true

theorem allCallOnly_true : ∀ es : List Expr, AllCallOnly (fun _ => True) es
  | [] => trivial
  | e :: es => ⟨e.callsOnly_true, allCallOnly_true es⟩

theorem entriesCallOnly_true : ∀ entries : List (String × Expr), EntriesCallOnly (fun _ => True) entries
  | [] => trivial
  | (_, e) :: rest => ⟨e.callsOnly_true, entriesCallOnly_true rest⟩

theorem optionCallsOnly_true : ∀ e : Option Expr, OptionCallsOnly (fun _ => True) e
  | none => trivial
  | some e => e.callsOnly_true

theorem Link.callsOnly_true : ∀ l : Link, l.CallsOnly fun _ => True
  | .index key _ => key.callsOnly_true
  | .property _ _ => trivial
  | .method _ arguments _ => ⟨trivial, allCallOnly_true arguments⟩

theorem linksCallOnly_true : ∀ ls : List Link, LinksCallOnly (fun _ => True) ls
  | [] => trivial
  | l :: ls => ⟨l.callsOnly_true, linksCallOnly_true ls⟩

theorem Stmt.callsOnly_true : ∀ s : Stmt, s.CallsOnly fun _ => True
  | .expr e => e.callsOnly_true
  | .declare _ _ value _ => optionCallsOnly_true value
  | .assign _ target value _ => ⟨target.callsOnly_true, value.callsOnly_true⟩
  | .block body => bodyCallsOnly_true body
  | .branch condition yes no =>
    ⟨condition.callsOnly_true, bodyCallsOnly_true yes, bodyCallsOnly_true no⟩
  | .whileLoop condition body _ => ⟨optionCallsOnly_true condition, bodyCallsOnly_true body⟩
  | .doLoop body condition _ _ => ⟨bodyCallsOnly_true body, condition.callsOnly_true⟩
  | .forLoop _ source body _ => ⟨source.callsOnly_true, bodyCallsOnly_true body⟩
  | .leave value _ | .giveBack value _ | .raise value _ => optionCallsOnly_true value
  | .proceed _ => trivial
  | .attempt body _ handler _ => ⟨bodyCallsOnly_true body, bodyCallsOnly_true handler⟩

theorem bodyCallsOnly_true : ∀ body : List Stmt, BodyCallsOnly (fun _ => True) body
  | [] => trivial
  | s :: rest => ⟨s.callsOnly_true, bodyCallsOnly_true rest⟩

end

/-- Some functions call only functions of `N`. -/
def FunctionsCallOnly (N : String → Prop) (functions : List Function) : Prop :=
  ∀ f ∈ functions, BodyCallsOnly N f.body

/-- A script calls only functions of `N`. -/
structure Program.CallsOnly (N : String → Prop) (p : Program) : Prop where
  body : BodyCallsOnly N p.body
  functions : FunctionsCallOnly N p.functions

section Simplify

variable {N : String → Prop}

theorem callsOnly_resolve (known : Known) (name : String) (p : Position) :
    (known.resolve name p).CallsOnly N := by
  unfold Known.resolve
  split <;> trivial

theorem callsOnly_tidy {keep : Bool} {body : List Stmt} (h : BodyCallsOnly N body) :
    BodyCallsOnly N (tidy keep body) := by
  fun_induction tidy keep body with
  | case1 => trivial
  | case2 s => exact h
  | case3 s => trivial
  | case4 s => exact h
  | case5 s => exact ⟨trivial, trivial⟩
  | case6 s rest hrest hpure ih => exact ih h.2
  | case7 s rest hrest hpure ih => exact ⟨h.1, ih h.2⟩

theorem callsOnly_conjunction {a b : Expr} (ha : a.CallsOnly N) (hb : b.CallsOnly N) (p : Position) :
    (conjunction a b p).CallsOnly N := by
  unfold conjunction
  split
  next => exact hb
  next => trivial
  next => exact ha
  next => exact ⟨ha, hb⟩

theorem callsOnly_disjunction {a b : Expr} (ha : a.CallsOnly N) (hb : b.CallsOnly N) (p : Position) :
    (disjunction a b p).CallsOnly N := by
  unfold disjunction
  split
  next => exact hb
  next => trivial
  next => exact ha
  next => exact ⟨ha, hb⟩

theorem callsOnly_conditional (keep : Bool) {c : Expr} {yes no : List Stmt} (hc : c.CallsOnly N)
    (hyes : BodyCallsOnly N yes) (hno : BodyCallsOnly N no) : (conditional keep c yes no).CallsOnly N := by
  unfold conditional
  split
  next =>
    split
    next => exact ⟨hc, trivial, trivial⟩
    next => exact hc
  next => exact ⟨hc, hyes, hno⟩

theorem callsOnly_simplify_chain {known : Known} {root : Expr} {links : List Link}
    (hroot : (root.simplify known).CallsOnly N) (hlinks : LinksCallOnly N (simplifyLinks known links)) :
    ((Expr.chain root links).simplify known).CallsOnly N := by
  cases root with
  | name n p => exact ⟨trivial, hlinks⟩
  | _ => exact ⟨hroot, hlinks⟩

theorem callsOnly_simplify_assign {known : Known} {keep : Bool} {operator : Option String}
    {target value : Expr} {p : Position} (htarget : (target.simplify known).CallsOnly N)
    (hvalue : (value.simplify known).CallsOnly N) :
    ((Stmt.assign operator target value p).simplify known keep).CallsOnly N := by
  unfold Stmt.simplify
  split <;> rename_i heq <;> cases heq
  next =>
    -- Either the call of the operator is gone, or it is the one that was there.
    split
    next => exact ⟨trivial, hvalue.2.2.1⟩
    next => exact ⟨trivial, hvalue⟩
  next => exact ⟨trivial, hvalue⟩
  next => exact ⟨htarget, hvalue⟩

mutual

theorem Expr.callsOnly_simplify (known : Known) :
    ∀ e : Expr, e.CallsOnly N → (e.simplify known).CallsOnly N
  | .literal _ _, _ => trivial
  | .name n p, _ => callsOnly_resolve known n p
  | .template parts _, h => allCallOnly_simplify known parts h
  | .array items _, h => allCallOnly_simplify known items h
  | .map entries _, h => entriesCallOnly_simplify known entries h
  | .both a b p, h =>
    callsOnly_conjunction (a.callsOnly_simplify known h.1) (b.callsOnly_simplify known h.2) p
  | .either a b p, h =>
    callsOnly_disjunction (a.callsOnly_simplify known h.1) (b.callsOnly_simplify known h.2) p
  | .call _ arguments _, h => ⟨h.1, allCallOnly_simplify known arguments h.2⟩
  | .chain root links, h =>
    callsOnly_simplify_chain (root.callsOnly_simplify known h.1) (linksCallOnly_simplify known links h.2)
  | .statement s _, h => s.callsOnly_simplify known true h

theorem allCallOnly_simplify (known : Known) :
    ∀ es : List Expr, AllCallOnly N es → AllCallOnly N (simplifyAll known es)
  | [], _ => trivial
  | e :: es, h => ⟨e.callsOnly_simplify known h.1, allCallOnly_simplify known es h.2⟩

theorem entriesCallOnly_simplify (known : Known) :
    ∀ entries : List (String × Expr), EntriesCallOnly N entries →
      EntriesCallOnly N (simplifyEntries known entries)
  | [], _ => trivial
  | (_, e) :: rest, h => ⟨e.callsOnly_simplify known h.1, entriesCallOnly_simplify known rest h.2⟩

theorem optionCallsOnly_simplify (known : Known) :
    ∀ e : Option Expr, OptionCallsOnly N e → OptionCallsOnly N (simplifyOption known e)
  | none, _ => trivial
  | some e, h => e.callsOnly_simplify known h

theorem Link.callsOnly_simplify (known : Known) :
    ∀ l : Link, l.CallsOnly N → (l.simplify known).CallsOnly N
  | .index key _, h => key.callsOnly_simplify known h
  | .property _ _, _ => trivial
  | .method _ arguments _, h => ⟨h.1, allCallOnly_simplify known arguments h.2⟩

theorem linksCallOnly_simplify (known : Known) :
    ∀ ls : List Link, LinksCallOnly N ls → LinksCallOnly N (simplifyLinks known ls)
  | [], _ => trivial
  | l :: ls, h => ⟨l.callsOnly_simplify known h.1, linksCallOnly_simplify known ls h.2⟩

theorem Stmt.callsOnly_simplify (known : Known) (keep : Bool) :
    ∀ s : Stmt, s.CallsOnly N → (s.simplify known keep).CallsOnly N
  | .expr e, h => e.callsOnly_simplify known h
  | .declare _ _ value _, h => optionCallsOnly_simplify known value h
  | .assign _ target value _, h =>
    callsOnly_simplify_assign (target.callsOnly_simplify known h.1) (value.callsOnly_simplify known h.2)
  | .block body, h => callsOnly_tidy (bodyCallsOnly_simplify known keep body h)
  | .branch c yes no, h =>
    callsOnly_conditional keep (c.callsOnly_simplify known h.1)
      (callsOnly_tidy (bodyCallsOnly_simplify known keep yes h.2.1))
      (callsOnly_tidy (bodyCallsOnly_simplify known keep no h.2.2))
  | .whileLoop c body _, h =>
    ⟨optionCallsOnly_simplify known c h.1, callsOnly_tidy (bodyCallsOnly_simplify known false body h.2)⟩
  | .doLoop body c _ _, h =>
    ⟨callsOnly_tidy (bodyCallsOnly_simplify known false body h.1), c.callsOnly_simplify known h.2⟩
  | .forLoop n source body _, h =>
    ⟨source.callsOnly_simplify known h.1,
      callsOnly_tidy (bodyCallsOnly_simplify ((n, none) :: known) false body h.2)⟩
  | .leave value _, h | .giveBack value _, h | .raise value _, h => optionCallsOnly_simplify known value h
  | .proceed _, _ => trivial
  | .attempt body n handler _, h => by
    have hbody := bodyCallsOnly_simplify known false body h.1
    have hhandler := fun inside => bodyCallsOnly_simplify inside false handler h.2
    unfold Stmt.simplify
    split
    next => exact callsOnly_tidy hbody
    next => exact ⟨callsOnly_tidy hbody, callsOnly_tidy (hhandler _)⟩

theorem bodyCallsOnly_simplify (known : Known) (keep : Bool) :
    ∀ body : List Stmt, BodyCallsOnly N body → BodyCallsOnly N (simplifyBody known keep body)
  | [], _ => trivial
  | s :: rest, h => ⟨s.callsOnly_simplify known keep h.1, bodyCallsOnly_simplify _ keep rest h.2⟩

end

theorem Program.callsOnly_simplify (known : Known) {p : Program} (h : p.CallsOnly N) :
    (p.simplify known).CallsOnly N where
  body := callsOnly_tidy (bodyCallsOnly_simplify known true p.body h.body)
  functions := by
    intro f hf
    obtain ⟨g, hg, rfl⟩ := List.mem_map.mp hf
    exact callsOnly_tidy (bodyCallsOnly_simplify _ true g.body (h.functions g hg))

end Simplify

end Script

end DerivedSignal
