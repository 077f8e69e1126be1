import DerivedSignal.Script.Token
import DerivedSignal.Script.Value

namespace DerivedSignal

namespace Script

mutual

/-- An expression. Operators are calls of functions named by their symbol, at the place of the
symbol; a chain is an expression followed by links into its value. -/
inductive Expr where
  | literal (value : Value) (place : Position)
  | name (name : String) (place : Position)
  | template (parts : List Expr) (place : Position)
  | array (items : List Expr) (place : Position)
  | map (entries : List (String × Expr)) (place : Position)
  | both (left right : Expr) (place : Position)
  | either (left right : Expr) (place : Position)
  | call (function : String) (arguments : List Expr) (place : Position)
  | chain (root : Expr) (links : List Link)
  | statement (s : Stmt) (place : Position)

/-- A link of a chain: an index between brackets, a property, or a method with its arguments. -/
inductive Link where
  | index (key : Expr) (bracket : Position)
  | property (name : String) (place : Position)
  | method (name : String) (arguments : List Expr) (place : Position)

/-- A statement. Loops hold the value that their condition has to have, if they have one. -/
inductive Stmt where
  | expr (e : Expr)
  | declare (constant : Bool) (name : String) (value : Option Expr) (place : Position)
  | assign (operator : Option String) (target value : Expr) (place : Position)
  | block (body : List Stmt)
  | branch (condition : Expr) (yes no : List Stmt)
  | whileLoop (condition : Option Expr) (body : List Stmt) (place : Position)
  | doLoop (body : List Stmt) (condition : Expr) (goOn : Bool) (place : Position)
  | forLoop (name : String) (source : Expr) (body : List Stmt) (place : Position)
  | leave (value : Option Expr) (place : Position)
  | proceed (place : Position)
  | giveBack (value : Option Expr) (place : Position)
  | raise (value : Option Expr) (place : Position)
  | attempt (body : List Stmt) (name : Option String) (handler : List Stmt) (place : Position)

end

/-- A function of a script. -/
structure Function where
  name : String
  parameters : List String
  body : List Stmt

/-- A script: its statements and functions. -/
structure Program where
  body : List Stmt
  functions : List Function

namespace Expr

instance : Inhabited Expr := ⟨literal .unit .start⟩

/-- The place of an expression in error texts; a chain stands where its root begins. -/
def place : Expr → Position
  | literal _ p | name _ p | template _ p | array _ p | map _ p | both _ _ p | either _ _ p
  | call _ _ p | statement _ p => p
  | chain root _ => root.place

/-- Whether a function is named by a symbol. -/
def isOperator (name : String) : Bool :=
  match name.toList with
  | c :: _ => !(('a' ≤ c && c ≤ 'z') || ('A' ≤ c && c ≤ 'Z') || c == '_')
  | [] => false

/-- The place where an expression begins; that of a binary operator is behind its first operand. -/
def start : Expr → Position
  | call f (first :: _ :: _) p => if isOperator f then first.start else p
  | both left _ _ | either left _ _ => left.start
  | chain root _ => root.start
  | e => e.place

end Expr

namespace Stmt

instance : Inhabited Stmt := ⟨block []⟩

/-- Whether a statement needs no semicolon behind it. -/
def closesItself : Stmt → Bool
  | block _ | branch _ _ _ | whileLoop _ _ _ | forLoop _ _ _ _ | attempt _ _ _ _ => true
  | _ => false

end Stmt

end Script

end DerivedSignal
