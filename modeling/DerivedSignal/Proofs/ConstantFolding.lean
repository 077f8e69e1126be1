import DerivedSignal.Script.Simplify
import Mathlib.Logic.Basic

namespace DerivedSignal

namespace Script

namespace Known

/-- The constant that a name stands for. -/
def constant? (known : Known) (name : String) : Option Value := (known.lookup name).join

/-- The same constants stand under some names. -/
def AgreeOn (names : List String) (known known' : Known) : Prop :=
  ∀ n ∈ names, known.constant? n = known'.constant? n

variable {names names' : List String} {known known' : Known}

theorem constant?_cons (name n : String) (v : Option Value) (known : Known) :
    constant? ((name, v) :: known) n = if n = name then v else known.constant? n := by
  by_cases h : n = name
  · simp [constant?, h]
  · simp [constant?, List.lookup_cons, h, beq_false_of_ne h]

theorem resolve_eq (known : Known) (name : String) (p : Position) :
    known.resolve name p = match known.constant? name with
      | some v => .literal v p
      | none => .name name p := by
  unfold resolve constant?
  rcases known.lookup name with _ | _ | v <;> rfl

/-- Variables are not known. -/
theorem constant?_eq_none {known : Known} (h : ∀ entry ∈ known, entry.2 = none) (n : String) :
    known.constant? n = none := by
  induction known with
  | nil => rfl
  | cons entry rest ih =>
    obtain ⟨hentry, hrest⟩ := List.forall_mem_cons.mp h
    obtain ⟨name, v⟩ := entry
    rw [constant?_cons]
    split
    next => exact hentry
    next => exact ih hrest

namespace AgreeOn

theorem left (h : AgreeOn (names ++ names') known known') : AgreeOn names known known' :=
  fun n hn => h n (List.mem_append_left _ hn)

theorem right (h : AgreeOn (names ++ names') known known') : AgreeOn names' known known' :=
  fun n hn => h n (List.mem_append_right _ hn)

/-- What comes into sight on both sides hides the same. -/
theorem cons (h : AgreeOn names known known') (entry : String × Option Value) :
    AgreeOn names (entry :: known) (entry :: known') := by
  intro n hn
  obtain ⟨name, v⟩ := entry
  rw [constant?_cons, constant?_cons, h n hn]

theorem append (h : AgreeOn names known known') (inside : Known) :
    AgreeOn names (inside ++ known) (inside ++ known') := by
  induction inside with
  | nil => exact h
  | cons entry rest ih => exact ih.cons entry

theorem behind (h : AgreeOn names known known') (s : Stmt) : AgreeOn names (known.behind s) (known'.behind s) := by
  unfold Known.behind
  split
  next => exact h.cons _
  next => exact h.cons _
  next => exact h

theorem resolve_congr {n : String} (h : AgreeOn [n] known known') (p : Position) :
    known.resolve n p = known'.resolve n p := by
  rw [resolve_eq, resolve_eq, h n (List.mem_singleton_self n)]

end AgreeOn

end Known

mutual

/-- The names that an expression looks up. The root of a chain keeps its name. -/
def Expr.names : Expr → List String
  | .literal _ _ => []
  | .name n _ => [n]
  | .template parts _ => namesOfAll parts
  | .array items _ => namesOfAll items
  | .map entries _ => namesOfEntries entries
  | .both a b _ | .either a b _ => a.names ++ b.names
  | .call _ arguments _ => namesOfAll arguments
  | .chain (.name _ _) links => namesOfLinks links
  | .chain root links => root.names ++ namesOfLinks links
  | .statement s _ => s.names

/-- The names that some expressions look up. -/
def namesOfAll : List Expr → List String
  | [] => []
  | e :: es => e.names ++ namesOfAll es

/-- The names that the entries of a map look up. -/
def namesOfEntries : List (String × Expr) → List String
  | [] => []
  | (_, e) :: rest => e.names ++ namesOfEntries rest

/-- The names that an optional expression looks up. -/
def namesOfOption : Option Expr → List String
  | none => []
  | some e => e.names

/-- The names that a link looks up. -/
def Link.names : Link → List String
  | .index key _ => key.names
  | .property _ _ => []
  | .method _ arguments _ => namesOfAll arguments

/-- The names that some links look up. -/
def namesOfLinks : List Link → List String
  | [] => []
  | l :: ls => l.names ++ namesOfLinks ls

/-- The names that a statement looks up. A variable that is assigned to keeps its name. -/
def Stmt.names : Stmt → List String
  | .expr e => e.names
  | .declare _ _ value _ => namesOfOption value
  | .assign _ (.name _ _) value _ => value.names
  | .assign _ target value _ => target.names ++ value.names
  | .block body => namesOfBody body
  | .branch c yes no => c.names ++ (namesOfBody yes ++ namesOfBody no)
  | .whileLoop c body _ => namesOfOption c ++ namesOfBody body
  | .doLoop body c _ _ => namesOfBody body ++ c.names
  | .forLoop _ source body _ => source.names ++ namesOfBody body
  | .leave value _ | .giveBack value _ | .raise value _ => namesOfOption value
  | .proceed _ => []
  | .attempt body _ handler _ => namesOfBody body ++ namesOfBody handler

/-- The names that some statements look up. -/
def namesOfBody : List Stmt → List String
  | [] => []
  | s :: rest => s.names ++ namesOfBody rest

end

/-- The names that a script looks up, in its functions too. -/
def Program.names (p : Program) : List String := namesOfBody p.body ++ p.functions.flatMap fun f => namesOfBody f.body

open Known (AgreeOn)

section Congruence

theorem simplify_chain_congr {known known' : Known} {root : Expr} {links : List Link}
    (hroot : AgreeOn root.names known known' → root.simplify known = root.simplify known')
    (hlinks : AgreeOn (namesOfLinks links) known known' → simplifyLinks known links = simplifyLinks known' links)
    (h : AgreeOn (Expr.chain root links).names known known') :
    (Expr.chain root links).simplify known = (Expr.chain root links).simplify known' := by
  cases root with
  | name n p => exact congrArg (Expr.chain (.name n p)) (hlinks h)
  | _ => exact congrArg₂ Expr.chain (hroot h.left) (hlinks h.right)

theorem simplify_assign_congr {known known' : Known} {operator : Option String} {target value : Expr} {p : Position}
    (htarget : AgreeOn target.names known known' → target.simplify known = target.simplify known')
    (hvalue : AgreeOn value.names known known' → value.simplify known = value.simplify known')
    (h : AgreeOn (Stmt.assign operator target value p).names known known') (keep : Bool) :
    (Stmt.assign operator target value p).simplify known keep =
      (Stmt.assign operator target value p).simplify known' keep := by
  unfold Stmt.simplify
  split <;> rename_i heq <;> cases heq
  next y q e r =>
    have hcall := (Expr.call.inj (hvalue h)).2.1
    have hy : known.resolve y q = known'.resolve y q := (List.cons.inj hcall).1
    have he : e.simplify known = e.simplify known' := (List.cons.inj (List.cons.inj hcall).2).1
    rw [hy, he]
  next => exact congrArg (Stmt.assign operator _ · p) (hvalue h)
  next hother _ =>
    cases target with
    | name x q => exact (hother x q rfl).elim
    | _ => exact congrArg₂ (Stmt.assign operator · · p) (htarget h.left) (hvalue h.right)

mutual

theorem Expr.simplify_congr {known known' : Known} :
    ∀ e : Expr, AgreeOn e.names known known' → e.simplify known = e.simplify known'
  | .literal _ _, _ => rfl
  | .name _ p, h => h.resolve_congr p
  | .template parts p, h => congrArg (Expr.template · p) (simplifyAll_congr parts h)
  | .array items p, h => congrArg (Expr.array · p) (simplifyAll_congr items h)
  | .map entries p, h => congrArg (Expr.map · p) (simplifyEntries_congr entries h)
  | .both a b p, h => congrArg₂ (conjunction · · p) (a.simplify_congr h.left) (b.simplify_congr h.right)
  | .either a b p, h => congrArg₂ (disjunction · · p) (a.simplify_congr h.left) (b.simplify_congr h.right)
  | .call f arguments p, h => congrArg (Expr.call f · p) (simplifyAll_congr arguments h)
  | .chain root links, h => simplify_chain_congr root.simplify_congr (simplifyLinks_congr links) h
  | .statement s p, h => congrArg (Expr.statement · p) (s.simplify_congr true h)

theorem simplifyAll_congr {known known' : Known} :
    ∀ es : List Expr, AgreeOn (namesOfAll es) known known' → simplifyAll known es = simplifyAll known' es
  | [], _ => rfl
  | e :: es, h => congrArg₂ List.cons (e.simplify_congr h.left) (simplifyAll_congr es h.right)

theorem simplifyEntries_congr {known known' : Known} :
    ∀ entries : List (String × Expr), AgreeOn (namesOfEntries entries) known known' →
      simplifyEntries known entries = simplifyEntries known' entries
  | [], _ => rfl
  | (k, e) :: rest, h =>
    congrArg₂ (fun e rest => (k, e) :: rest) (e.simplify_congr h.left) (simplifyEntries_congr rest h.right)

theorem simplifyOption_congr {known known' : Known} :
    ∀ e : Option Expr, AgreeOn (namesOfOption e) known known' → simplifyOption known e = simplifyOption known' e
  | none, _ => rfl
  | some e, h => congrArg some (e.simplify_congr h)

theorem Link.simplify_congr {known known' : Known} :
    ∀ l : Link, AgreeOn l.names known known' → l.simplify known = l.simplify known'
  | .index key p, h => congrArg (Link.index · p) (key.simplify_congr h)
  | .property _ _, _ => rfl
  | .method n arguments p, h => congrArg (Link.method n · p) (simplifyAll_congr arguments h)

theorem simplifyLinks_congr {known known' : Known} :
    ∀ ls : List Link, AgreeOn (namesOfLinks ls) known known' → simplifyLinks known ls = simplifyLinks known' ls
  | [], _ => rfl
  | l :: ls, h => congrArg₂ List.cons (l.simplify_congr h.left) (simplifyLinks_congr ls h.right)

theorem Stmt.simplify_congr {known known' : Known} (keep : Bool) :
    ∀ s : Stmt, AgreeOn s.names known known' → s.simplify known keep = s.simplify known' keep
  | .expr e, h => congrArg Stmt.expr (e.simplify_congr h)
  | .declare constant n value p, h => congrArg (Stmt.declare constant n · p) (simplifyOption_congr value h)
  | .assign _ target value _, h => simplify_assign_congr target.simplify_congr value.simplify_congr h keep
  | .block body, h => congrArg (fun body => Stmt.block (tidy keep body)) (simplifyBody_congr keep body h)
  | .branch c yes no, h => by
    have hyes := simplifyBody_congr keep yes h.right.left
    have hno := simplifyBody_congr keep no h.right.right
    simp only [Stmt.simplify, c.simplify_congr h.left, hyes, hno]
  | .whileLoop c body p, h =>
    congrArg₂ (fun c body => Stmt.whileLoop c (tidy false body) p) (simplifyOption_congr c h.left)
      (simplifyBody_congr false body h.right)
  | .doLoop body c goOn p, h =>
    congrArg₂ (fun body c => Stmt.doLoop (tidy false body) c goOn p) (simplifyBody_congr false body h.left)
      (c.simplify_congr h.right)
  | .forLoop n source body p, h =>
    congrArg₂ (fun source body => Stmt.forLoop n source (tidy false body) p) (source.simplify_congr h.left)
      (simplifyBody_congr false body (h.right.cons (n, none)))
  | .leave value p, h => congrArg (Stmt.leave · p) (simplifyOption_congr value h)
  | .giveBack value p, h => congrArg (Stmt.giveBack · p) (simplifyOption_congr value h)
  | .raise value p, h => congrArg (Stmt.raise · p) (simplifyOption_congr value h)
  | .proceed _, _ => rfl
  | .attempt body none handler p, h => by
    have hbody := simplifyBody_congr false body h.left
    have hhandler := simplifyBody_congr false handler h.right
    simp only [Stmt.simplify, hbody, hhandler]
  | .attempt body (some n) handler p, h => by
    have hbody := simplifyBody_congr false body h.left
    have hhandler := simplifyBody_congr false handler (h.right.cons (n, none))
    simp only [Stmt.simplify, hbody, hhandler]

theorem simplifyBody_congr {known known' : Known} (keep : Bool) :
    ∀ body : List Stmt, AgreeOn (namesOfBody body) known known' →
      simplifyBody known keep body = simplifyBody known' keep body
  | [], _ => rfl
  | s :: rest, h => by
    have hs := s.simplify_congr keep h.left
    have hrest := simplifyBody_congr keep rest (h.right.behind (s.simplify known' keep))
    simp only [simplifyBody, hs, hrest]

end

theorem Function.simplify_congr {known known' : Known} {f : Function}
    (h : AgreeOn (namesOfBody f.body) known known') : f.simplify known = f.simplify known' := by
  have hbody := simplifyBody_congr true f.body (h.append (f.parameters.map fun n => (n, none)))
  simp only [Function.simplify, hbody]

/-- A script is simplified alike where the same constants stand under the names that it looks up. -/
theorem Program.simplify_congr {known known' : Known} {p : Program} (h : AgreeOn p.names known known') :
    p.simplify known = p.simplify known' := by
  have hfunctions : p.functions.map (Function.simplify known) = p.functions.map (Function.simplify known') := by
    refine List.map_congr_left fun f hf => Function.simplify_congr fun n hn => h.right n ?_
    exact List.mem_flatMap.mpr ⟨f, hf, hn⟩
  simp only [Program.simplify, simplifyBody_congr true p.body h.left, hfunctions]

end Congruence

end Script

end DerivedSignal
