import DerivedSignal.Limits
import DerivedSignal.Script.Expr
import DerivedSignal.Script.Lexer

namespace DerivedSignal

namespace Script

namespace Parser

/-- What surrounds a piece of script: the limits, how deep it is nested, and how deep it may be. -/
structure Context where
  limits : Limits
  depth : Nat
  maxDepth : Nat
  inLoop : Bool
  atTop : Bool

/-- What is left of the tokens, the names in sight with whether they are constants, and the
functions so far. -/
structure State where
  tokens : List (Token × Position)
  locals : List (String × Bool)
  functions : List Function

/-- A parser. -/
abbrev Parse := StateT State Option

/-- The next token. -/
def peek : Parse (Option Token) := do return (← get).tokens.head?.map (·.1)

/-- The place of the next token. -/
def place : Parse Position := do return ((← get).tokens.head?.map (·.2)).getD .start

/-- Takes the next token. -/
def advance : Parse Unit := modify fun s => { s with tokens := s.tokens.tail }

/-- Takes the next token if it is a given one. -/
def accept (t : Token) : Parse Bool := do
  if (← peek) == some t then
    advance
    return true
  else return false

/-- Takes the next token, which has to be a given one. -/
def expect (t : Token) : Parse Unit := do
  if !(← accept t) then failure

/-- Takes a name. -/
def takeName : Parse String := do
  match ← peek with
  | some (.name s) =>
    advance
    return s
  | _ => failure

/-- Fails unless a condition holds. -/
def require (condition : Bool) : Parse Unit := if condition then pure () else failure

/-- The surroundings one level deeper. -/
def Context.deeper (c : Context) : Parse Context := do
  require !(Limits.exceeds c.maxDepth (c.depth + 1))
  return { c with depth := c.depth + 1 }

/-- The surroundings inside a loop. -/
def Context.loop (c : Context) : Context := { c with inLoop := true }

/-- Runs a parser and forgets the names that it brought into sight. -/
def locally {α : Type} (p : Parse α) : Parse α := do
  let saved := (← get).locals
  let a ← p
  modify fun s => { s with locals := saved }
  return a

/-- Brings a name into sight. -/
def bring (name : String) (constant : Bool) : Parse Unit :=
  modify fun s => { s with locals := (name, constant) :: s.locals }

/-- How tightly a binary operator binds; more is tighter. -/
def binding? : Token → Option (String × Nat)
  | .symbol s =>
    if ["||", "|", "^"].contains s then some (s, 30)
    else if ["&&", "&"].contains s then some (s, 60)
    else if ["==", "!="].contains s then some (s, 90)
    else if ["<", "<=", ">", ">="].contains s then some (s, 130)
    else if ["..", "..="].contains s then some (s, 140)
    else if ["+", "-"].contains s then some (s, 150)
    else if ["*", "/", "%"].contains s then some (s, 180)
    else if s == "**" then some (s, 190)
    else if ["<<", ">>"].contains s then some (s, 210)
    else none
  | _ => none

/-- Whether an expression may be a condition: a literal has to be a truth value. -/
def mayBeBool : Expr → Bool
  | .literal (.bool _) _ => true
  | .literal _ _ | .array _ _ | .map _ _ | .template _ _ => false
  | _ => true

/-- Whether a loop may run over an expression. -/
def mayBeIterable : Expr → Bool
  | .literal (.string _) _ => true
  | .literal _ _ | .map _ _ => false
  | _ => true

/-- Whether a literal may index another one. -/
def mayIndex (root key : Expr) : Bool :=
  match root, key with
  | .map _ _, .literal (.string _) _ => true
  | .map _ _, .literal _ _ => false
  | .literal (.int _) _, .literal (.int _) _ | .literal (.string _) _, .literal (.int _) _
  | .array _ _, .literal (.int _) _ | .template _ _, .literal (.int _) _ => true
  | .literal (.int _) _, .literal _ _ | .literal (.string _) _, .literal _ _
  | .array _ _, .literal _ _ | .template _ _, .literal _ _ => false
  | .literal (.int _) _, _ | .literal (.string _) _, _ => true
  | .literal _ _, _ => false
  | _, _ => true

/-- An expression with one more link. -/
def link (e : Expr) (l : Link) : Expr :=
  match e with
  | .chain root links => .chain root (links ++ [l])
  | root => .chain root [l]

/-- The application of a binary operator. -/
def apply (operator : String) (left right : Expr) (p : Position) : Parse Expr := do
  if operator == "&&" then
    require (mayBeBool left && mayBeBool right)
    return .both left right p
  else if operator == "||" then
    require (mayBeBool left && mayBeBool right)
    return .either left right p
  else return .call operator [left, right] p

/-- The application of a sign; literals take it in. -/
def applySign (operator : String) (e : Expr) (p : Position) : Expr :=
  match operator, e with
  | "-", .literal (.int n) _ =>
    match inIntegerRange? (-n) with
    | some m => .literal (.int m) p
    | none => .literal (.float (-(FloatMath.ofInt n))) p
  | "-", .literal (.float x) _ => .literal (.float (-x)) p
  | "+", .literal (.int n) q => .literal (.int n) q
  | "+", .literal (.float x) q => .literal (.float x) q
  | _, _ => .call operator [e] p

/-- The assignment to a target. A constant in sight cannot be assigned to, and in a chain every
link has to be an index or a property. -/
def assignment (operator : Option String) (target value : Expr) (p : Position) : Parse Stmt := do
  match target with
  | .name name _ =>
    require !((((← get).locals.lookup name)).getD false)
    return .assign operator target value p
  | .chain (.name _ _) links =>
    require (links.all fun
      | .method _ _ _ => false
      | _ => true)
    return .assign operator target value p
  | _ => failure

/-- The operator of an assignment sign; nothing for a plain one. -/
def assignmentSign? : Token → Option (Option String)
  | .symbol "=" => some none
  | .symbol s => (Token.assignments.lookup s).map some
  | _ => none

mutual

/-- An expression. -/
def expr : Nat → Context → Parse Expr
  | 0, _ => failure
  | fuel + 1, c => do
    let c ← c.deeper
    let left ← unary fuel c
    binary fuel c 1 left

/-- What follows a left operand, as long as it binds at least as tightly as `least`. -/
def binary : Nat → Context → Nat → Expr → Parse Expr
  | 0, _, _, _ => failure
  | fuel + 1, c, least, left => do
    match (← peek).bind binding? with
    | none => return left
    | some (operator, tightness) =>
      if tightness < least || (tightness == least && operator != "**") then return left
      let p ← place
      advance
      let right ← unary fuel c
      let next := (((← peek).bind binding?).map (·.2)).getD 0
      let right ← if tightness < next || (tightness == next && operator == "**") then
          binary fuel c tightness right
        else pure right
      let c ← c.deeper
      binary fuel c least (← apply operator left right p)

/-- An operand with the signs before it. -/
def unary : Nat → Context → Parse Expr
  | 0, _ => failure
  | fuel + 1, c => do
    match ← peek with
    | some (.symbol s) =>
      if s == "-" || s == "+" || s == "!" then
        let p ← place
        advance
        return applySign s (← unary fuel (← c.deeper)) p
      else primary fuel c
    | _ => primary fuel c

/-- An operand without signs. -/
def primary : Nat → Context → Parse Expr
  | 0, _ => failure
  | fuel + 1, c => do
    let p ← place
    match ← peek with
    | none => failure
    | some (.int n) =>
      advance
      postfixes fuel c (.literal (.int n) p)
    | some (.float x) =>
      advance
      postfixes fuel c (.literal (.float x) p)
    | some (.char ch) =>
      advance
      postfixes fuel c (.literal (.char ch) p)
    | some (.string s) =>
      advance
      postfixes fuel c (.literal (.string s) p)
    | some (.template _ _) =>
      let parts ← pieces fuel c
      postfixes fuel c (match parts with
        | [.literal v _] => .literal v p
        | parts => .template parts p)
    | some (.name s) =>
      advance
      if ← accept (.symbol "(") then
        let arguments ← items fuel (← c.deeper) ")" 0
        postfixes fuel c (.call s arguments p)
      else postfixes fuel c (.name s p)
    | some (.keyword "true") =>
      advance
      postfixes fuel c (.literal (.bool true) p)
    | some (.keyword "false") =>
      advance
      postfixes fuel c (.literal (.bool false) p)
    | some (.keyword s) =>
      if ["if", "while", "loop", "do", "for"].contains s then
        let e ← statement fuel { c with atTop := false }
        postfixes fuel c (.statement e p)
      else failure
    | some (.symbol "(") =>
      advance
      if ← accept (.symbol ")") then postfixes fuel c (.literal .unit p)
      else
        let e ← expr fuel (← c.deeper)
        expect (.symbol ")")
        postfixes fuel c e
    | some (.symbol "[") =>
      advance
      let elements ← items fuel (← c.deeper) "]" c.limits.maxArraySize
      postfixes fuel c (.array elements p)
    | some (.symbol "#\x7b") =>
      advance
      let members ← entries fuel (← c.deeper) []
      postfixes fuel c (.map members p)
    | some (.symbol "\x7b") =>
      let body ← block fuel c
      postfixes fuel c (.statement (.block body) p)
    | some (.symbol _) => failure

/-- The pieces of a text with embedded code. -/
def pieces : Nat → Context → Parse (List Expr)
  | 0, _ => failure
  | fuel + 1, c => do
    let p ← place
    match ← peek with
    | some (.template s opens) =>
      advance
      let piece := Expr.literal (.string s) p
      if opens then
        let body ← locally (statements fuel { (← c.deeper) with atTop := false })
        return piece :: .statement (.block body) p :: (← pieces fuel c)
      else return [piece]
    | _ => failure

/-- The links behind an expression. -/
def postfixes : Nat → Context → Expr → Parse Expr
  | 0, _, _ => failure
  | fuel + 1, c, e => do
    let p ← place
    match ← peek with
    | some (.symbol "[") =>
      advance
      let key ← expr fuel (← c.deeper)
      expect (.symbol "]")
      require (mayIndex e key)
      postfixes fuel c (link e (.index key p))
    | some (.symbol ".") =>
      advance
      let p ← place
      let name ← takeName
      if ← accept (.symbol "(") then
        let arguments ← items fuel (← c.deeper) ")" 0
        postfixes fuel c (link e (.method name arguments p))
      else postfixes fuel c (link e (.property name p))
    | _ => return e

/-- Expressions between commas up to a closing sign, fewer than `limit` unless that is zero. -/
def items : Nat → Context → String → Nat → Parse (List Expr)
  | 0, _, _, _ => failure
  | fuel + 1, c, closing, limit => itemsFrom fuel c closing limit 0

/-- The expressions behind the first `count` ones. -/
def itemsFrom : Nat → Context → String → Nat → Nat → Parse (List Expr)
  | 0, _, _, _, _ => failure
  | fuel + 1, c, closing, limit, count => do
    require (limit == 0 || count < limit)
    if ← accept (.symbol closing) then return []
    else
      let e ← expr fuel c
      if ← accept (.symbol ",") then return e :: (← itemsFrom fuel c closing limit (count + 1))
      else
        require (limit == 0 || count + 1 < limit)
        expect (.symbol closing)
        return [e]

/-- The entries of an object map behind those with the given keys. -/
def entries : Nat → Context → List String → Parse (List (String × Expr))
  | 0, _, _ => failure
  | fuel + 1, c, keys => do
    if ← accept (.symbol "\x7d") then return []
    else
      let key ← match ← peek with
        | some (.name s) | some (.string s) =>
          advance
          pure s
        | _ => failure
      require !(keys.contains key)
      expect (.symbol ":")
      require !(Limits.exceeds c.limits.maxMapSize (keys.length + 1))
      let e ← expr fuel c
      if ← accept (.symbol ",") then return (key, e) :: (← entries fuel c (key :: keys))
      else
        expect (.symbol "\x7d")
        return [(key, e)]

/-- A condition, which must not begin with a brace. -/
def condition : Nat → Context → Parse Expr
  | 0, _ => failure
  | fuel + 1, c => do
    require ((← peek) != some (.symbol "\x7b"))
    let e ← expr fuel c
    require (mayBeBool e)
    return e

/-- Statements between braces. -/
def block : Nat → Context → Parse (List Stmt)
  | 0, _ => failure
  | fuel + 1, c => do
    let c ← c.deeper
    expect (.symbol "\x7b")
    locally (statements fuel { c with atTop := false })

/-- Statements up to the closing brace, or to the end of the script at the top. Empty ones leave no
trace. -/
def statements : Nat → Context → Parse (List Stmt)
  | 0, _ => failure
  | fuel + 1, c => do
    match ← peek with
    | none => if c.atTop then return [] else failure
    | some (.symbol "\x7d") =>
      if c.atTop then failure
      else
        advance
        return []
    | some (.symbol ";") =>
      advance
      statements fuel c
    | some (.keyword "fn") =>
      require c.atTop
      advance
      definition fuel c
      statements fuel c
    | some _ =>
      let s ← statement fuel c
      if !(← accept (.symbol ";")) then
        let ends := match ← peek with
          | none => c.atTop
          | some t => !c.atTop && t == .symbol "\x7d"
        require (s.closesItself || ends)
      return s :: (← statements fuel c)

/-- A function definition behind its keyword. Functions differ by name or number of parameters. -/
def definition : Nat → Context → Parse Unit
  | 0, _ => failure
  | fuel + 1, c => do
    let name ← takeName
    expect (.symbol "(")
    let parameters ← names fuel []
    let inside : Context :=
      { limits := c.limits, depth := 0, maxDepth := c.limits.maxFunctionExprDepth, inLoop := false,
        atTop := false }
    let saved := (← get).locals
    modify fun s => { s with locals := parameters.map fun p => (p, false) }
    let body ← block fuel inside
    modify fun s => { s with locals := saved }
    let known := (← get).functions
    require !(known.any fun f => f.name == name && f.parameters.length == parameters.length)
    modify fun s => { s with functions := known ++ [⟨name, parameters, body⟩] }

/-- The parameters of a function behind those already read; none is repeated. -/
def names : Nat → List String → Parse (List String)
  | 0, _ => failure
  | fuel + 1, before => do
    if ← accept (.symbol ")") then return before.reverse
    else
      let name ← takeName
      require !(before.contains name)
      if ← accept (.symbol ",") then names fuel (name :: before)
      else
        expect (.symbol ")")
        return (name :: before).reverse

/-- The value behind `break`, `return` or `throw`, if there is one. -/
def optionalValue : Nat → Context → Parse (Option Expr)
  | 0, _ => failure
  | fuel + 1, c => do
    match ← peek with
    | none | some (.symbol ";") => return none
    | some (.symbol "\x7d") => if c.atTop then failure else return none
    | some _ => return some (← expr fuel c)

/-- The rest of a conditional statement behind `if`. -/
def branches : Nat → Context → Parse Stmt
  | 0, _ => failure
  | fuel + 1, c => do
    let test ← condition fuel c
    let yes ← block fuel c
    if ← accept (.keyword "else") then
      if ← accept (.keyword "if") then return .branch test yes [← branches fuel (← c.deeper)]
      else return .branch test yes (← block fuel c)
    else return .branch test yes []

/-- A statement without the semicolon behind it. -/
def statement : Nat → Context → Parse Stmt
  | 0, _ => failure
  | fuel + 1, c => do
    let c ← c.deeper
    let p ← place
    match ← peek with
    | some (.symbol "\x7b") => return .block (← block fuel c)
    | some (.keyword "if") =>
      advance
      branches fuel c
    | some (.keyword "while") =>
      advance
      let test ← condition fuel c
      return .whileLoop (some test) (← block fuel c.loop) p
    | some (.keyword "loop") =>
      advance
      return .whileLoop none (← block fuel c.loop) p
    | some (.keyword "do") =>
      advance
      let body ← block fuel c.loop
      let goOn ← accept (.keyword "while")
      if !goOn then expect (.keyword "until")
      let test ← condition fuel c
      return .doLoop body test goOn p
    | some (.keyword "for") =>
      advance
      let name ← takeName
      expect (.keyword "in")
      require ((← peek) != some (.symbol "\x7b"))
      let source ← expr fuel c
      require (mayBeIterable source)
      let body ← locally (do
        bring name false
        block fuel c.loop)
      return .forLoop name source body p
    | some (.keyword "break") =>
      require c.inLoop
      advance
      return .leave (← optionalValue fuel { c with atTop := false }) p
    | some (.keyword "continue") =>
      require c.inLoop
      advance
      return .proceed p
    | some (.keyword "return") =>
      advance
      return .giveBack (← optionalValue fuel c) p
    | some (.keyword "throw") =>
      advance
      return .raise (← optionalValue fuel c) p
    | some (.keyword "try") =>
      advance
      let body ← block fuel c
      expect (.keyword "catch")
      let name ← if ← accept (.symbol "(") then do
          let name ← takeName
          expect (.symbol ")")
          pure (some name)
        else pure none
      let handler ← locally (do
        match name with
        | some name => bring name false
        | none => pure ()
        block fuel c)
      return .attempt body name handler p
    | some (.keyword "let") => declaration fuel c false
    | some (.keyword "const") => declaration fuel c true
    | _ =>
      let e ← expr fuel c
      match (← peek).bind assignmentSign? with
      | none => return .expr e
      | some operator =>
        let p ← place
        advance
        assignment operator e (← expr fuel c) p

/-- A declaration, from its keyword on. -/
def declaration : Nat → Context → Bool → Parse Stmt
  | 0, _, _ => failure
  | fuel + 1, c, constant => do
    advance
    let p ← place
    let name ← takeName
    let value ← if ← accept (.symbol "=") then do
        let e ← expr fuel c
        pure (some e)
      else pure none
    bring name constant
    return .declare constant name value p

end

/-- The surroundings of a whole script. -/
def top (limits : Limits) : Context :=
  { limits, depth := 0, maxDepth := limits.maxExprDepth, inLoop := false, atTop := true }

end Parser

/-- The script of a text. Every token takes a bounded number of steps, so the number of tokens bounds
the steps. -/
def Program.parse? (limits : Limits) (text : String) : Option Program := do
  let tokens ← Lexer.tokens? limits.maxStringSize text
  let (body, state) ←
    Parser.statements (16 * (tokens.length + 1)) (Parser.top limits) ⟨tokens, [], []⟩
  return ⟨body, state.functions⟩

end Script

end DerivedSignal
