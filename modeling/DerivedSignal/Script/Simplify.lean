import DerivedSignal.Script.Expr

namespace DerivedSignal

namespace Script

/-- The names in sight, innermost first, with the values of those that are known constants. -/
abbrev Known := List (String × Option Value)

mutual

/-- Whether evaluating an expression can have no effect. -/
def Expr.isPure : Expr → Bool
  | .literal _ _ | .name _ _ => true
  | .template parts _ => allPure parts
  | .array items _ => allPure items
  | .map entries _ => entriesPure entries
  | .both a b _ | .either a b _ => a.isPure && b.isPure
  | .call _ _ _ | .chain _ _ => false
  | .statement s _ => s.isPure

/-- Whether evaluating some expressions can have no effect. -/
def allPure : List Expr → Bool
  | [] => true
  | e :: es => e.isPure && allPure es

/-- Whether evaluating the entries of a map can have no effect. -/
def entriesPure : List (String × Expr) → Bool
  | [] => true
  | (_, e) :: rest => e.isPure && entriesPure rest

/-- Whether a statement can have no effect. A loop that may run for ever is one. -/
def Stmt.isPure : Stmt → Bool
  | .expr e => e.isPure
  | .block body => bodyPure body
  | .branch c yes no => c.isPure && bodyPure yes && bodyPure no
  | .whileLoop (some (.literal (.bool false) _)) _ _ => true
  | .doLoop body (.literal (.bool b) _) goOn _ => b != goOn && bodyPure body
  | .forLoop _ source body _ => source.isPure && bodyPure body
  | .attempt body _ handler _ => bodyPure body && bodyPure handler
  | _ => false

/-- Whether some statements can have no effect. -/
def bodyPure : List Stmt → Bool
  | [] => true
  | s :: rest => s.isPure && bodyPure rest

end

/-- Whether a statement has a value of its own. -/
def Stmt.hasValue : Stmt → Bool
  | .branch _ _ _ | .block _ | .expr _ => true
  | _ => false

/-- Drops the statements without effect; the last one stays if its value is kept. -/
def tidy (keep : Bool) : List Stmt → List Stmt
  | [] => []
  | [s] =>
    if !s.isPure then [s]
    else if !keep then []
    else if s.hasValue then [s] else [.block []]
  | s :: rest => if s.isPure then tidy keep rest else s :: tidy keep rest

/-- A name, or the constant that it stands for. -/
def Known.resolve (known : Known) (name : String) (p : Position) : Expr :=
  match known.lookup name with
  | some (some v) => .literal v p
  | _ => .name name p

/-- The names in sight behind a statement. -/
def Known.behind (known : Known) : Stmt → Known
  | .declare true name (some (.literal v _)) _ => (name, some v) :: known
  | .declare _ name _ _ => (name, none) :: known
  | _ => known

/-- A conjunction without truth values that decide nothing. -/
def conjunction (a b : Expr) (p : Position) : Expr :=
  match a, b with
  | .literal (.bool true) _, b => b
  | .literal (.bool false) q, _ => .literal (.bool false) q
  | a, .literal (.bool true) _ => a
  | a, b => .both a b p

/-- A disjunction without truth values that decide nothing. -/
def disjunction (a b : Expr) (p : Position) : Expr :=
  match a, b with
  | .literal (.bool false) _, b => b
  | .literal (.bool true) q, _ => .literal (.bool true) q
  | a, .literal (.bool false) _ => a
  | a, b => .either a b p

/-- A conditional statement; without branches only its condition is left. -/
def conditional (keep : Bool) (c : Expr) (yes no : List Stmt) : Stmt :=
  match yes, no with
  | [], [] => if keep then .block [.expr c, .block []] else .expr c
  | yes, no => .branch c yes no

/-- The operators with which an assignment can be shortened. -/
def shortens (operator : String) : Bool :=
  (Token.assignments.map (·.2)).contains operator

mutual

/-- Simplifies an expression. -/
def Expr.simplify (known : Known) : Expr → Expr
  | .literal v p => .literal v p
  | .name n p => known.resolve n p
  | .template parts p => .template (simplifyAll known parts) p
  | .array items p => .array (simplifyAll known items) p
  | .map entries p => .map (simplifyEntries known entries) p
  | .both a b p => conjunction (a.simplify known) (b.simplify known) p
  | .either a b p => disjunction (a.simplify known) (b.simplify known) p
  | .call f arguments p => .call f (simplifyAll known arguments) p
  | .chain (.name n p) links => .chain (.name n p) (simplifyLinks known links)
  | .chain root links => .chain (root.simplify known) (simplifyLinks known links)
  | .statement s p => .statement (s.simplify known true) p

/-- Simplifies some expressions. -/
def simplifyAll (known : Known) : List Expr → List Expr
  | [] => []
  | e :: es => e.simplify known :: simplifyAll known es

/-- Simplifies the entries of a map. -/
def simplifyEntries (known : Known) : List (String × Expr) → List (String × Expr)
  | [] => []
  | (k, e) :: rest => (k, e.simplify known) :: simplifyEntries known rest

/-- Simplifies an optional expression. -/
def simplifyOption (known : Known) : Option Expr → Option Expr
  | none => none
  | some e => some (e.simplify known)

/-- Simplifies a link. -/
def Link.simplify (known : Known) : Link → Link
  | .index key p => .index (key.simplify known) p
  | .property n p => .property n p
  | .method n arguments p => .method n (simplifyAll known arguments) p

/-- Simplifies some links. -/
def simplifyLinks (known : Known) : List Link → List Link
  | [] => []
  | l :: ls => l.simplify known :: simplifyLinks known ls

/-- Simplifies a statement; `keep` says whether values at the end of its blocks are wanted. -/
def Stmt.simplify (known : Known) (keep : Bool) : Stmt → Stmt
  | .expr e => .expr (e.simplify known)
  | .declare constant n value p => .declare constant n (simplifyOption known value) p
  | .assign none (.name x p) (.call f [.name y q, e] r) s =>
    if x = y ∧ shortens f then .assign (some f) (.name x p) (e.simplify known) r
    else .assign none (.name x p) (.call f [known.resolve y q, e.simplify known] r) s
  | .assign operator (.name x p) e q => .assign operator (.name x p) (e.simplify known) q
  | .assign operator target e q => .assign operator (target.simplify known) (e.simplify known) q
  | .block body => .block (tidy keep (simplifyBody known keep body))
  | .branch c yes no =>
    conditional keep (c.simplify known) (tidy keep (simplifyBody known keep yes))
      (tidy keep (simplifyBody known keep no))
  | .whileLoop c body p =>
    .whileLoop (simplifyOption known c) (tidy false (simplifyBody known false body)) p
  | .doLoop body c goOn p =>
    .doLoop (tidy false (simplifyBody known false body)) (c.simplify known) goOn p
  | .forLoop n source body p =>
    .forLoop n (source.simplify known)
      (tidy false (simplifyBody ((n, none) :: known) false body)) p
  | .leave value p => .leave (simplifyOption known value) p
  | .proceed p => .proceed p
  | .giveBack value p => .giveBack (simplifyOption known value) p
  | .raise value p => .raise (simplifyOption known value) p
  | .attempt body n handler p =>
    if bodyPure body then .block (tidy false (simplifyBody known false body))
    else .attempt (tidy false (simplifyBody known false body)) n
      (tidy false (simplifyBody
        (match n with
          | some n => (n, none) :: known
          | none => known) false handler)) p

/-- Simplifies some statements, each with what is known behind the ones before it. -/
def simplifyBody (known : Known) (keep : Bool) : List Stmt → List Stmt
  | [] => []
  | s :: rest =>
    s.simplify known keep :: simplifyBody (known.behind (s.simplify known keep)) keep rest

end

/-- Simplifies a function. Its parameters hide known constants of the same name. -/
def Function.simplify (known : Known) (f : Function) : Function :=
  let inside := f.parameters.map (fun n => (n, none)) ++ known
  { f with body := tidy true (simplifyBody inside true f.body) }

/-- Simplifies a script. What is known from outside is known in its functions too. -/
def Program.simplify (known : Known) (p : Program) : Program :=
  ⟨tidy true (simplifyBody known true p.body), p.functions.map (Function.simplify known)⟩

end Script

end DerivedSignal
