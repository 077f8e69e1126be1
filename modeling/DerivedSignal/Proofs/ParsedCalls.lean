import DerivedSignal.Script.Parser
import DerivedSignal.Proofs.CallNames
import DerivedSignal.Proofs.TokenNames

namespace DerivedSignal

namespace Script

namespace Parser

/-- The names that are left are words among `N`, and the functions so far call only functions of `N` and have
words for names. -/
structure State.Within (N : String → Prop) (s : State) : Prop where
  names : ∀ e ∈ s.tokens, ∀ name, e.1 = .name name → N name ∧ Lexer.isName name.toList = true
  functions : FunctionsCallOnly N s.functions
  named : ∀ f ∈ s.functions, Lexer.isName f.name.toList = true

/-- A parser that keeps within `N` and gives what satisfies `Q`. -/
def Yields {α : Type} (N : String → Prop) (Q : α → Prop) (p : Parse α) : Prop :=
  ∀ s, s.Within N → ∀ a s', p s = some (a, s') → s'.Within N ∧ Q a

namespace Yields

variable {α β : Type} {N : String → Prop} {Q : α → Prop} {P : β → Prop}

theorem pure {a : α} (h : Q a) : Yields N Q (Pure.pure a) := by
  rintro s hs _ _ ⟨⟩
  exact ⟨hs, h⟩

theorem bind {p : Parse α} {k : α → Parse β} (h : Yields N Q p) (hk : ∀ a, Q a → Yields N P (k a)) :
    Yields N P (p >>= k) := by
  intro s hs b s'' hb
  obtain ⟨⟨a, s'⟩, ha, hb⟩ := Option.bind_eq_some_iff.mp hb
  obtain ⟨hs', hQ⟩ := h s hs a s' ha
  exact hk a hQ s' hs' b s'' hb

theorem failure : Yields N Q (Alternative.failure : Parse α) := by
  rintro _ _ _ _ ⟨⟩

/-- What is read off the state. -/
theorem ofGet (f : State → α) (h : ∀ s, s.Within N → Q (f s)) : Yields N Q (do return f (← get)) := by
  rintro s hs _ _ ⟨⟩
  exact ⟨hs, h s hs⟩

theorem ofModify {f : State → State} (h : ∀ s, s.Within N → (f s).Within N) :
    Yields N (fun _ => True) (modify f) := by
  rintro s hs _ _ ⟨⟩
  exact ⟨h s hs, trivial⟩

end Yields

variable {N : String → Prop}

theorem yields_get : Yields N (State.Within N) (get : Parse State) := Yields.ofGet id fun _ h => h

theorem yields_peek :
    Yields N (fun t => ∀ name, t = some (.name name) → N name ∧ Lexer.isName name.toList = true) peek :=
  Yields.ofGet _ fun s hs name ht => by
    obtain ⟨e, he, hname⟩ := Option.map_eq_some_iff.mp ht
    exact hs.names e (List.mem_of_head? he) name hname

theorem yields_place : Yields N (fun _ => True) place := Yields.ofGet _ fun _ _ => trivial

theorem yields_advance : Yields N (fun _ => True) advance :=
  Yields.ofModify fun _ hs => ⟨fun e he => hs.names e (List.mem_of_mem_tail he), hs.functions, hs.named⟩

theorem yields_accept (t : Token) : Yields N (fun _ => True) (accept t) := by
  refine yields_peek.bind fun t' _ => ?_
  split
  next => exact yields_advance.bind fun _ _ => .pure trivial
  next => exact .pure trivial

theorem yields_expect (t : Token) : Yields N (fun _ => True) (expect t) := by
  refine (yields_accept t).bind fun b _ => ?_
  split
  next => exact .failure
  next => exact .pure trivial

theorem yields_takeName : Yields N (fun name => N name ∧ Lexer.isName name.toList = true) takeName := by
  refine yields_peek.bind fun t ht => ?_
  split
  next name => exact yields_advance.bind fun _ _ => .pure (ht name rfl)
  next => exact .failure

theorem yields_require (b : Bool) : Yields N (fun _ => True) (require b) := by
  unfold require
  split
  next => exact .pure trivial
  next => exact .failure

theorem yields_deeper (c : Context) : Yields N (fun _ => True) c.deeper :=
  (yields_require _).bind fun _ _ => .pure trivial

theorem yields_setLocals (locals : List (String × Bool)) :
    Yields N (fun _ => True) (modify fun s => { s with locals } : Parse Unit) :=
  Yields.ofModify fun _ hs => ⟨hs.names, hs.functions, hs.named⟩

theorem yields_locally {α : Type} {Q : α → Prop} {p : Parse α} (h : Yields N Q p) :
    Yields N Q (locally p) := by
  refine yields_get.bind fun s _ => h.bind fun a ha => ?_
  exact (yields_setLocals s.locals).bind fun _ _ => .pure ha

theorem yields_bring (name : String) (constant : Bool) : Yields N (fun _ => True) (bring name constant) :=
  Yields.ofModify fun _ hs => ⟨hs.names, hs.functions, hs.named⟩

theorem linksCallOnly_append {ls ls' : List Link} (h : LinksCallOnly N ls) (h' : LinksCallOnly N ls') :
    LinksCallOnly N (ls ++ ls') := by
  induction ls with
  | nil => exact h'
  | cons l ls ih => exact ⟨h.1, ih h.2⟩

theorem callsOnly_link {e : Expr} {l : Link} (he : e.CallsOnly N) (hl : l.CallsOnly N) :
    (link e l).CallsOnly N := by
  unfold link
  split
  next root links => exact ⟨he.1, linksCallOnly_append he.2 ⟨hl, trivial⟩⟩
  next => exact ⟨he, hl, trivial⟩

/-- The binary operators are symbols. -/
theorem mem_symbols_of_binding? {t : Token} {operator : String} {tightness : Nat}
    (h : binding? t = some (operator, tightness)) : operator ∈ Token.symbols := by
  unfold binding? at h
  split at h
  next s =>
    split_ifs at h <;> cases h <;> simp_all [Token.symbols] <;> grind
  next => cases h

theorem callsOnly_applySign {operator : String} (ho : N operator) {e : Expr} (he : e.CallsOnly N)
    (p : Position) : (applySign operator e p).CallsOnly N := by
  unfold applySign
  split
  next => split <;> trivial
  next => trivial
  next => trivial
  next => trivial
  next => exact ⟨ho, he, trivial⟩

theorem yields_apply {operator : String} (ho : N operator) {left right : Expr} (hl : left.CallsOnly N)
    (hr : right.CallsOnly N) (p : Position) :
    Yields N (Expr.CallsOnly N) (apply operator left right p) := by
  unfold apply
  split
  next => exact (yields_require _).bind fun _ _ => .pure ⟨hl, hr⟩
  next =>
    split
    next => exact (yields_require _).bind fun _ _ => .pure ⟨hl, hr⟩
    next => exact .pure ⟨ho, hl, hr, trivial⟩

theorem yields_assignment (operator : Option String) {target value : Expr} (ht : target.CallsOnly N)
    (hv : value.CallsOnly N) (p : Position) :
    Yields N (Stmt.CallsOnly N) (assignment operator target value p) := by
  unfold assignment
  split
  next =>
    refine yields_get.bind fun s _ => ?_
    exact (yields_require _).bind fun _ _ => .pure ⟨ht, hv⟩
  next => exact (yields_require _).bind fun _ _ => .pure ⟨ht, hv⟩
  next => exact .failure

/-- With so much fuel everything that is parsed calls only functions of `N`. -/
structure Sound (N : String → Prop) (fuel : Nat) : Prop where
  expr (c : Context) : Yields N (Expr.CallsOnly N) (expr fuel c)
  binary (c : Context) (least : Nat) {left : Expr} (h : left.CallsOnly N) :
    Yields N (Expr.CallsOnly N) (binary fuel c least left)
  unary (c : Context) : Yields N (Expr.CallsOnly N) (unary fuel c)
  primary (c : Context) : Yields N (Expr.CallsOnly N) (primary fuel c)
  pieces (c : Context) : Yields N (AllCallOnly N) (pieces fuel c)
  postfixes (c : Context) {e : Expr} (h : e.CallsOnly N) : Yields N (Expr.CallsOnly N) (postfixes fuel c e)
  items (c : Context) (closing : String) (limit : Nat) : Yields N (AllCallOnly N) (items fuel c closing limit)
  itemsFrom (c : Context) (closing : String) (limit count : Nat) :
    Yields N (AllCallOnly N) (itemsFrom fuel c closing limit count)
  entries (c : Context) (keys : List String) : Yields N (EntriesCallOnly N) (entries fuel c keys)
  condition (c : Context) : Yields N (Expr.CallsOnly N) (condition fuel c)
  block (c : Context) : Yields N (BodyCallsOnly N) (block fuel c)
  statements (c : Context) : Yields N (BodyCallsOnly N) (statements fuel c)
  definition (c : Context) : Yields N (fun _ => True) (definition fuel c)
  names (before : List String) : Yields N (fun _ => True) (names fuel before)
  optionalValue (c : Context) : Yields N (OptionCallsOnly N) (optionalValue fuel c)
  branches (c : Context) : Yields N (Stmt.CallsOnly N) (branches fuel c)
  statement (c : Context) : Yields N (Stmt.CallsOnly N) (statement fuel c)
  declaration (c : Context) (constant : Bool) : Yields N (Stmt.CallsOnly N) (declaration fuel c constant)

theorem sound_zero : Sound N 0 := by
  constructor <;> intros <;>
    simp only [expr, binary, unary, primary, pieces, postfixes, items, itemsFrom, entries, condition, block,
      statements, definition, names, optionalValue, branches, statement, declaration] <;>
    exact .failure

section Step

variable {fuel : Nat} (ih : Sound N fuel)

include ih

theorem yields_expr_succ (c : Context) : Yields N (Expr.CallsOnly N) (expr (fuel + 1) c) := by
  unfold expr
  exact (yields_deeper c).bind fun c' _ => (ih.unary c').bind fun _ hleft => ih.binary c' 1 hleft

theorem yields_binary_succ (hsymbols : ∀ s ∈ Token.symbols, N s) (c : Context) (least : Nat) {left : Expr}
    (h : left.CallsOnly N) : Yields N (Expr.CallsOnly N) (binary (fuel + 1) c least left) := by
  unfold binary
  refine yields_peek.bind fun t _ => ?_
  split
  next => exact .pure h
  next operator tightness hbinding =>
    have hoperator : N operator := by
      obtain ⟨t', -, hbinding⟩ := Option.bind_eq_some_iff.mp hbinding
      exact hsymbols operator (mem_symbols_of_binding? hbinding)
    have hrest : ∀ (p : Position) (right : Expr), right.CallsOnly N →
        Yields N (Expr.CallsOnly N) (do
          let c ← c.deeper
          binary fuel c least (← apply operator left right p)) := fun p right hright =>
      (yields_deeper c).bind fun c' _ => (yields_apply hoperator h hright p).bind fun _ he =>
        ih.binary c' least he
    dsimp only
    split
    next => exact .pure h
    next =>
      refine yields_place.bind fun p _ => yields_advance.bind fun _ _ => ?_
      refine (ih.unary c).bind fun right hright => yields_peek.bind fun t' _ => ?_
      split
      next => exact (ih.binary c tightness hright).bind fun right' hright' => hrest p right' hright'
      next => exact hrest p right hright

theorem yields_unary_succ (hsymbols : ∀ s ∈ Token.symbols, N s) (c : Context) :
    Yields N (Expr.CallsOnly N) (unary (fuel + 1) c) := by
  unfold unary
  refine yields_peek.bind fun t _ => ?_
  split
  next s _ =>
    split
    next hsign =>
      have hs : N s := hsymbols s (by
        simp only [Bool.or_eq_true, beq_iff_eq] at hsign
        rcases hsign with (rfl | rfl) | rfl <;> decide)
      refine yields_place.bind fun p _ => yields_advance.bind fun _ _ => ?_
      refine (yields_deeper c).bind fun c' _ => (ih.unary c').bind fun e he => ?_
      exact .pure (callsOnly_applySign hs he p)
    next => exact ih.primary c
  next => exact ih.primary c

theorem yields_primary_succ (c : Context) : Yields N (Expr.CallsOnly N) (primary (fuel + 1) c) := by
  unfold primary
  refine yields_place.bind fun p _ => yields_peek.bind fun t ht => ?_
  split
  next => exact .failure
  next => exact yields_advance.bind fun _ _ => ih.postfixes c trivial
  next => exact yields_advance.bind fun _ _ => ih.postfixes c trivial
  next => exact yields_advance.bind fun _ _ => ih.postfixes c trivial
  next => exact yields_advance.bind fun _ _ => ih.postfixes c trivial
  next =>
    refine (ih.pieces c).bind fun parts hparts => ih.postfixes c ?_
    split
    next => trivial
    next => exact hparts
  next s =>
    refine yields_advance.bind fun _ _ => (yields_accept _).bind fun called _ => ?_
    split
    next =>
      refine (yields_deeper c).bind fun c' _ => (ih.items c' _ _).bind fun arguments harguments => ?_
      exact ih.postfixes c ⟨(ht s rfl).1, harguments⟩
    next => exact ih.postfixes c trivial
  next => exact yields_advance.bind fun _ _ => ih.postfixes c trivial
  next => exact yields_advance.bind fun _ _ => ih.postfixes c trivial
  next =>
    split
    next => exact (ih.statement _).bind fun s hs => ih.postfixes c hs
    next => exact .failure
  next =>
    refine yields_advance.bind fun _ _ => (yields_accept _).bind fun unit _ => ?_
    split
    next => exact ih.postfixes c trivial
    next =>
      refine (yields_deeper c).bind fun c' _ => (ih.expr c').bind fun e he => ?_
      exact (yields_expect _).bind fun _ _ => ih.postfixes c he
  next =>
    refine yields_advance.bind fun _ _ => (yields_deeper c).bind fun c' _ => ?_
    exact (ih.items c' _ _).bind fun elements helements => ih.postfixes c helements
  next =>
    refine yields_advance.bind fun _ _ => (yields_deeper c).bind fun c' _ => ?_
    exact (ih.entries c' _).bind fun members hmembers => ih.postfixes c hmembers
  next => exact (ih.block c).bind fun body hbody => ih.postfixes c hbody
  next => exact .failure

theorem yields_pieces_succ (c : Context) : Yields N (AllCallOnly N) (pieces (fuel + 1) c) := by
  unfold pieces
  refine yields_place.bind fun p _ => yields_peek.bind fun t _ => ?_
  split
  next =>
    refine yields_advance.bind fun _ _ => ?_
    split
    next =>
      refine (yields_deeper c).bind fun c' _ => (yields_locally (ih.statements _)).bind fun body hbody => ?_
      exact (ih.pieces c).bind fun rest hrest => .pure ⟨trivial, hbody, hrest⟩
    next => exact .pure ⟨trivial, trivial⟩
  next => exact .failure

theorem yields_postfixes_succ (c : Context) {e : Expr} (h : e.CallsOnly N) :
    Yields N (Expr.CallsOnly N) (postfixes (fuel + 1) c e) := by
  unfold postfixes
  refine yields_place.bind fun p _ => yields_peek.bind fun t _ => ?_
  split
  next =>
    refine yields_advance.bind fun _ _ => (yields_deeper c).bind fun c' _ => ?_
    refine (ih.expr c').bind fun key hkey => (yields_expect _).bind fun _ _ => ?_
    exact (yields_require _).bind fun _ _ => ih.postfixes c (callsOnly_link h hkey)
  next =>
    refine yields_advance.bind fun _ _ => yields_place.bind fun p' _ => ?_
    refine yields_takeName.bind fun name hname => (yields_accept _).bind fun called _ => ?_
    split
    next =>
      refine (yields_deeper c).bind fun c' _ => (ih.items c' _ _).bind fun arguments harguments => ?_
      exact ih.postfixes c (callsOnly_link h ⟨hname.1, harguments⟩)
    next => exact ih.postfixes c (callsOnly_link h trivial)
  next => exact .pure h

theorem yields_items_succ (c : Context) (closing : String) (limit : Nat) :
    Yields N (AllCallOnly N) (items (fuel + 1) c closing limit) := by
  unfold items
  exact ih.itemsFrom c closing limit 0

theorem yields_itemsFrom_succ (c : Context) (closing : String) (limit count : Nat) :
    Yields N (AllCallOnly N) (itemsFrom (fuel + 1) c closing limit count) := by
  unfold itemsFrom
  refine (yields_require _).bind fun _ _ => (yields_accept _).bind fun closed _ => ?_
  split
  next => exact .pure trivial
  next =>
    refine (ih.expr c).bind fun e he => (yields_accept _).bind fun more _ => ?_
    split
    next => exact (ih.itemsFrom c closing limit _).bind fun rest hrest => .pure ⟨he, hrest⟩
    next =>
      exact (yields_require _).bind fun _ _ => (yields_expect _).bind fun _ _ => .pure ⟨he, trivial⟩

theorem yields_entries_succ (c : Context) (keys : List String) :
    Yields N (EntriesCallOnly N) (entries (fuel + 1) c keys) := by
  unfold entries
  have hrest : ∀ key : String, Yields N (EntriesCallOnly N) (do
      require !(keys.contains key)
      expect (.symbol ":")
      require !(Limits.exceeds c.limits.maxMapSize (keys.length + 1))
      let e ← expr fuel c
      if ← accept (.symbol ",") then return (key, e) :: (← entries fuel c (key :: keys))
      else
        expect (.symbol "\x7d")
        return [(key, e)]) := by
    intro key
    refine (yields_require _).bind fun _ _ => (yields_expect _).bind fun _ _ => ?_
    refine (yields_require _).bind fun _ _ => (ih.expr c).bind fun e he => ?_
    refine (yields_accept _).bind fun more _ => ?_
    split
    next => exact (ih.entries c _).bind fun rest hrest => .pure ⟨he, hrest⟩
    next => exact (yields_expect _).bind fun _ _ => .pure ⟨he, trivial⟩
  refine (yields_accept _).bind fun closed _ => ?_
  split
  next => exact .pure trivial
  next =>
    refine yields_peek.bind fun t _ => ?_
    dsimp only
    split
    next key _ => exact yields_advance.bind fun _ _ => hrest key
    next key _ => exact yields_advance.bind fun _ _ => hrest key
    next => exact Yields.bind (Q := fun _ => True) .failure fun key _ => hrest key

theorem yields_condition_succ (c : Context) : Yields N (Expr.CallsOnly N) (condition (fuel + 1) c) := by
  unfold condition
  refine yields_peek.bind fun t _ => (yields_require _).bind fun _ _ => ?_
  exact (ih.expr c).bind fun e he => (yields_require _).bind fun _ _ => .pure he

theorem yields_block_succ (c : Context) : Yields N (BodyCallsOnly N) (block (fuel + 1) c) := by
  unfold block
  refine (yields_deeper c).bind fun c' _ => (yields_expect _).bind fun _ _ => ?_
  exact yields_locally (ih.statements _)

theorem yields_statements_succ (c : Context) : Yields N (BodyCallsOnly N) (statements (fuel + 1) c) := by
  unfold statements
  refine yields_peek.bind fun t _ => ?_
  split
  next =>
    split
    next => exact .pure trivial
    next => exact .failure
  next =>
    split
    next => exact .failure
    next => exact yields_advance.bind fun _ _ => .pure trivial
  next => exact yields_advance.bind fun _ _ => ih.statements c
  next =>
    refine (yields_require _).bind fun _ _ => yields_advance.bind fun _ _ => ?_
    exact (ih.definition c).bind fun _ _ => ih.statements c
  next =>
    refine (ih.statement c).bind fun s hs => (yields_accept _).bind fun closed _ => ?_
    have hrest : Yields N (BodyCallsOnly N) (do return s :: (← statements fuel c)) :=
      (ih.statements c).bind fun rest hrest => .pure ⟨hs, hrest⟩
    dsimp only
    split
    next =>
      exact yields_peek.bind fun t _ => (yields_require _).bind fun _ _ => hrest
    next => exact hrest

theorem yields_definition_succ (c : Context) : Yields N (fun _ => True) (definition (fuel + 1) c) := by
  unfold definition
  refine yields_takeName.bind fun name hname => (yields_expect _).bind fun _ _ => ?_
  refine (ih.names []).bind fun parameters _ => yields_get.bind fun s _ => ?_
  refine (yields_setLocals _).bind fun _ _ => (ih.block _).bind fun body hbody => ?_
  refine (yields_setLocals _).bind fun _ _ => yields_get.bind fun s' hs' => ?_
  refine (yields_require _).bind fun _ _ => Yields.ofModify fun s'' hs'' => ⟨hs''.names, ?_, ?_⟩
  · exact List.forall_mem_append.mpr ⟨hs'.functions, by simpa [FunctionsCallOnly] using hbody⟩
  · exact List.forall_mem_append.mpr ⟨hs'.named, by simpa using hname.2⟩

theorem yields_names_succ (before : List String) : Yields N (fun _ => True) (names (fuel + 1) before) := by
  unfold names
  refine (yields_accept _).bind fun closed _ => ?_
  split
  next => exact .pure trivial
  next =>
    refine yields_takeName.bind fun name _ => (yields_require _).bind fun _ _ => ?_
    refine (yields_accept _).bind fun more _ => ?_
    split
    next => exact ih.names _
    next => exact (yields_expect _).bind fun _ _ => .pure trivial

theorem yields_optionalValue_succ (c : Context) :
    Yields N (OptionCallsOnly N) (optionalValue (fuel + 1) c) := by
  unfold optionalValue
  refine yields_peek.bind fun t _ => ?_
  split
  next => exact .pure trivial
  next => exact .pure trivial
  next =>
    split
    next => exact .failure
    next => exact .pure trivial
  next => exact (ih.expr c).bind fun e he => .pure he

theorem yields_branches_succ (c : Context) : Yields N (Stmt.CallsOnly N) (branches (fuel + 1) c) := by
  unfold branches
  refine (ih.condition c).bind fun test htest => (ih.block c).bind fun yes hyes => ?_
  refine (yields_accept _).bind fun more _ => ?_
  split
  next =>
    refine (yields_accept _).bind fun chained _ => ?_
    split
    next =>
      refine (yields_deeper c).bind fun c' _ => (ih.branches c').bind fun s hs => ?_
      exact .pure ⟨htest, hyes, hs, trivial⟩
    next => exact (ih.block c).bind fun no hno => .pure ⟨htest, hyes, hno⟩
  next => exact .pure ⟨htest, hyes, trivial⟩

theorem yields_statement_succ (c : Context) : Yields N (Stmt.CallsOnly N) (statement (fuel + 1) c) := by
  unfold statement
  refine (yields_deeper c).bind fun c _ => yields_place.bind fun p _ => yields_peek.bind fun t _ => ?_
  split
  next => exact (ih.block c).bind fun body hbody => .pure hbody
  next => exact yields_advance.bind fun _ _ => ih.branches c
  next =>
    refine yields_advance.bind fun _ _ => (ih.condition c).bind fun test htest => ?_
    exact (ih.block _).bind fun body hbody => .pure ⟨htest, hbody⟩
  next => exact yields_advance.bind fun _ _ => (ih.block _).bind fun body hbody => .pure ⟨trivial, hbody⟩
  next =>
    refine yields_advance.bind fun _ _ => (ih.block _).bind fun body hbody => ?_
    refine (yields_accept _).bind fun goOn _ => ?_
    have hrest : Yields N (Stmt.CallsOnly N) (do
        let test ← condition fuel c
        return .doLoop body test goOn p) :=
      (ih.condition c).bind fun test htest => .pure ⟨hbody, htest⟩
    dsimp only
    split
    next => exact (yields_expect _).bind fun _ _ => hrest
    next => exact hrest
  next =>
    refine yields_advance.bind fun _ _ => yields_takeName.bind fun name _ => ?_
    refine (yields_expect _).bind fun _ _ => yields_peek.bind fun t _ => (yields_require _).bind fun _ _ => ?_
    refine (ih.expr c).bind fun source hsource => (yields_require _).bind fun _ _ => ?_
    refine (yields_locally ((yields_bring name false).bind fun _ _ => ih.block _)).bind fun body hbody => ?_
    exact .pure ⟨hsource, hbody⟩
  next =>
    refine (yields_require _).bind fun _ _ => yields_advance.bind fun _ _ => ?_
    exact (ih.optionalValue _).bind fun value hvalue => .pure hvalue
  next => exact (yields_require _).bind fun _ _ => yields_advance.bind fun _ _ => .pure trivial
  next => exact yields_advance.bind fun _ _ => (ih.optionalValue _).bind fun value hvalue => .pure hvalue
  next => exact yields_advance.bind fun _ _ => (ih.optionalValue _).bind fun value hvalue => .pure hvalue
  next =>
    refine yields_advance.bind fun _ _ => (ih.block c).bind fun body hbody => ?_
    refine (yields_expect _).bind fun _ _ => (yields_accept _).bind fun named _ => ?_
    have hrest : ∀ (name : Option String) {r : Parse (List Stmt)}, Yields N (BodyCallsOnly N) r →
        Yields N (Stmt.CallsOnly N) (do return .attempt body name (← locally r) p) :=
      fun _ _ hr => (yields_locally hr).bind fun handler hhandler => .pure ⟨hbody, hhandler⟩
    dsimp only
    split
    next =>
      refine yields_takeName.bind fun name _ => (yields_expect _).bind fun _ _ => ?_
      exact hrest (some name) ((yields_bring name false).bind fun _ _ => ih.block c)
    next => exact hrest none (ih.block c)
  next => exact ih.declaration c false
  next => exact ih.declaration c true
  next =>
    refine (ih.expr c).bind fun e he => yields_peek.bind fun t _ => ?_
    split
    next => exact .pure he
    next operator _ =>
      refine yields_place.bind fun p' _ => yields_advance.bind fun _ _ => ?_
      exact (ih.expr c).bind fun value hvalue => yields_assignment operator he hvalue p'

theorem yields_declaration_succ (c : Context) (constant : Bool) :
    Yields N (Stmt.CallsOnly N) (declaration (fuel + 1) c constant) := by
  unfold declaration
  refine yields_advance.bind fun _ _ => yields_place.bind fun p _ => yields_takeName.bind fun name _ => ?_
  refine (yields_accept _).bind fun valued _ => ?_
  split
  next =>
    refine (ih.expr c).bind fun e he => Yields.bind (Q := (· = some e)) (.pure rfl) fun value hvalue => ?_
    exact (yields_bring name constant).bind fun _ _ => .pure (hvalue ▸ he)
  next =>
    refine Yields.bind (Q := (· = none)) (.pure rfl) fun value hvalue => ?_
    exact (yields_bring name constant).bind fun _ _ => .pure (hvalue ▸ trivial)

end Step

theorem sound (hsymbols : ∀ s ∈ Token.symbols, N s) (fuel : Nat) : Sound N fuel := by
  induction fuel with
  | zero => exact sound_zero
  | succ fuel ih =>
    exact {
      expr := yields_expr_succ ih
      binary := yields_binary_succ ih hsymbols
      unary := yields_unary_succ ih hsymbols
      primary := yields_primary_succ ih
      pieces := yields_pieces_succ ih
      postfixes := yields_postfixes_succ ih
      items := yields_items_succ ih
      itemsFrom := yields_itemsFrom_succ ih
      entries := yields_entries_succ ih
      condition := yields_condition_succ ih
      block := yields_block_succ ih
      statements := yields_statements_succ ih
      definition := yields_definition_succ ih
      names := yields_names_succ ih
      optionalValue := yields_optionalValue_succ ih
      branches := yields_branches_succ ih
      statement := yields_statement_succ ih
      declaration := yields_declaration_succ ih }

end Parser

theorem Parser.within_of_tokens? {N : String → Prop} {limits : Nat} {text : String}
    (htext : ∀ name : String, name.toList <:+: text.toList → N name) {tokens : List (Token × Position)}
    (h : Lexer.tokens? limits text = some tokens) : Parser.State.Within N ⟨tokens, [], []⟩ where
  names _ he name hname := (Lexer.name_of_tokens? h he hname).imp_left (htext name)
  functions := List.forall_mem_nil _
  named := List.forall_mem_nil _

/-- A script calls by name only what its text names. -/
theorem Program.callsOnly_of_parse? {N : String → Prop} (hsymbols : ∀ s ∈ Token.symbols, N s)
    {limits : Limits} {text : String} (htext : ∀ name : String, name.toList <:+: text.toList → N name)
    {p : Program} (h : Program.parse? limits text = some p) : p.CallsOnly N := by
  obtain ⟨tokens, htokens, h⟩ := Option.bind_eq_some_iff.mp h
  obtain ⟨⟨body, state⟩, hbody, h⟩ := Option.bind_eq_some_iff.mp h
  cases h
  obtain ⟨hstate, hcalls⟩ :=
    (Parser.sound hsymbols _).statements _ _ (Parser.within_of_tokens? htext htokens) _ _ hbody
  exact ⟨hcalls, hstate.functions⟩

/-- The functions of a script have words for names. -/
theorem Program.isName_of_parse? {limits : Limits} {text : String} {p : Program}
    (h : Program.parse? limits text = some p) : ∀ f ∈ p.functions, Lexer.isName f.name.toList = true := by
  obtain ⟨tokens, htokens, h⟩ := Option.bind_eq_some_iff.mp h
  obtain ⟨⟨body, state⟩, hbody, h⟩ := Option.bind_eq_some_iff.mp h
  cases h
  have hwithin := Parser.within_of_tokens? (N := fun _ => True) (fun _ _ => trivial) htokens
  exact ((Parser.sound (fun _ _ => trivial) _).statements _ _ hwithin _ _ hbody).1.named

end Script

end DerivedSignal
