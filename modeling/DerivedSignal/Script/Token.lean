namespace DerivedSignal

namespace Script

/-- A place in a script text; lines and columns count from one. -/
structure Position where
  line : Nat
  column : Nat
  deriving DecidableEq, Repr

namespace Position

/-- The first place of a text. -/
def start : Position := ⟨1, 1⟩

/-- The place after a character. -/
def after (p : Position) (c : Char) : Position :=
  if c = '\n' then ⟨p.line + 1, 1⟩ else ⟨p.line, p.column + 1⟩

/-- The place after some characters. -/
def afterAll (p : Position) (cs : List Char) : Position := cs.foldl after p

/-- The note of a place behind an error text. -/
def note (p : Position) : String :=
  " (line " ++ toString p.line ++ ", position " ++ toString p.column ++ ")"

end Position

/-- A token. A text with embedded code is a sequence of `template` tokens, each with a piece of
literal text; code and a closing brace follow a piece that `opens`. -/
inductive Token where
  | int (n : Int)
  | float (x : Float)
  | char (c : Char)
  | string (s : String)
  | template (s : String) (opens : Bool)
  | name (s : String)
  | keyword (s : String)
  | symbol (s : String)
  deriving DecidableEq

namespace Token

/-- The words that direct a script. -/
def keywords : List String :=
  ["let", "const", "if", "else", "while", "do", "until", "loop", "for", "in", "break", "continue",
   "return", "throw", "try", "catch", "fn", "true", "false"]

/-- The words that are kept from use as names. -/
def reserved : List String :=
  ["switch", "import", "export", "private", "as", "global", "var", "static", "goto", "match",
   "case", "public", "protected", "new", "use", "with", "is", "module", "package", "super",
   "spawn", "thread", "go", "sync", "async", "await", "yield", "default", "void", "null", "nil",
   "shared", "this", "print", "debug", "type_of", "eval", "Fn", "call", "curry", "is_def_fn",
   "is_def_var", "is_shared"]

/-- The symbols of the language, longer ones first. -/
def symbols : List String :=
  ["**=", "<<=", ">>=", "..=", "**", "<<", ">>", "&&", "||", "==", "!=", "<=", ">=", "+=", "-=",
   "*=", "/=", "%=", "&=", "|=", "^=", "..", "#\x7b", "\x7b", "\x7d", "(", ")", "[", "]", "+", "-",
   "*", "/", "%", "&", "|", "^", "!", "<", ">", "=", ",", ";", ":", "."]

/-- Sequences that look like symbols and are refused; they win over shorter symbols. -/
def refused : List String :=
  ["===", "!==", "...", "++", "--", "->", "<-", ":=", "::", "(*", "*)", "=>"]

/-- The operators that an assignment can carry, with the operator that each stands for. -/
def assignments : List (String × String) :=
  [("+=", "+"), ("-=", "-"), ("*=", "*"), ("/=", "/"), ("%=", "%"), ("**=", "**"), ("<<=", "<<"),
   (">>=", ">>"), ("&=", "&"), ("|=", "|"), ("^=", "^")]

/-- Whether a sign behind the token belongs to what follows and is no binary operator. -/
def signMayFollow : Token → Bool
  | symbol s => !(s == ")" || s == "]" || s == "\x7d" || s == ".")
  | keyword s =>
    ["return", "throw", "in", "if", "while", "until", "do", "else", "loop"].contains s
  | template _ opens => opens
  | _ => false

end Token

end Script

end DerivedSignal
