import DerivedSignal.Proofs.SessionAborts
import DerivedSignal.Proofs.StatementSteps

namespace DerivedSignal

namespace Script

/-- A function that a script defines, as it is when the script runs. -/
def Function.Scripted (f : Function) : Prop :=
  ∃ limits text known p, Program.parse? limits text = some p ∧ f ∈ (p.simplify known).functions

theorem Function.Scripted.isName {f : Function} (h : f.Scripted) : Lexer.isName f.name.toList = true := by
  obtain ⟨limits, text, known, p, hp, hf⟩ := h
  obtain ⟨g, hg, rfl⟩ := List.mem_map.mp hf
  exact Program.isName_of_parse? hp g hg

/-- No script function takes the place of an operator. -/
theorem function?_eq_none {c : Setting} (hc : ∀ f ∈ c.functions, f.Scripted) {name : String}
    (hname : Lexer.isName name.toList = false) (count : ℕ) : c.function? name count = none := by
  refine List.find?_eq_none.mpr fun f hf hmatches => ?_
  have heq : f.name = name := by simp_all
  have hword := (hc f hf).isName
  rw [heq, hname] at hword
  cases hword

/-- Whatever a session has been asked, its scripts define the functions that they call. -/
theorem scripted_of_session {limits : Limits} {queries : List Query} {s : Session} {p : Program}
    (hs : queries.foldl Session.answering (.new limits) = s) (hp : s.expression = some p) :
    ∀ f ∈ Session.override p.functions s.preambleFunctions, f.Scripted := by
  have hscripts : s.Scripts fun p => ∀ f ∈ p.functions, f.Scripted :=
    hs ▸ (Session.Scripts.new limits).foldl_answering
      (fun limits source known p hp f hf => ⟨limits, source, known, p, hp, hf⟩) queries
  refine List.forall_mem_append.mpr ⟨hscripts.expression p hp, fun f hf => ?_⟩
  have hmem := List.mem_of_mem_filter hf
  unfold Session.preambleFunctions at hmem
  split at hmem
  next p' hp' => exact hscripts.preamble p' hp' f hmem
  next => cases hmem

/-- What the operands of a call are: a variable in front is read when the others have been evaluated. -/
inductive Operands (fuel : ℕ) (c : Setting) : List Expr → Machine → List Value → Machine → Prop
  | others {es m vs m'} (hfront : ∀ n q rest, es ≠ .name n q :: rest)
      (h : evalAll fuel c es m = (.ok vs, m')) : Operands fuel c es m vs m'
  | name {above below : List Slot} {s : Slot} {q rest m vs steps}
      (h : evalAll fuel c rest m = (.ok vs, ⟨above ++ s :: below, steps⟩))
      (habove : lacks above s.name = true) :
      Operands fuel c (.name s.name q :: rest) m (s.value :: vs) ⟨above ++ s :: below, steps⟩

section Operators

variable {c : Setting} {fuel : ℕ} {p : Position} {m m' m'' : Machine} {vs : List Value} {a b : ℤ}

/-- A call is that of a function on its operands. The target in front, if there is one, holds the first. -/
theorem eval_call_front {f : String} {es : List Expr} (htick : tick c p m = (.ok (), m'))
    (h : Operands fuel c es m' vs m'') :
    ∃ first, eval (fuel + 1) c (.call f es p) m = invoke fuel c f vs first p m'' ∧
      ∀ t ∈ first, ∃ v rest, vs = v :: rest ∧ t.read m'' = (.ok v, m'') := by
  cases h with
  | others hfront h =>
    refine ⟨none, ?_, fun t ht => by cases ht⟩
    rw [eval, Ends.bind_of_ok htick]
    · exact Ends.bind_of_ok h
    · exact hfront
  | name h habove =>
    rename_i above below s q rest vs steps
    refine ⟨if s.constant then none else some (.part above.length []), ?_, ?_⟩
    · rw [eval, Ends.bind_of_ok htick, Ends.bind_of_ok h, Ends.bind_of_ok (slotOf_append habove),
        Ends.bind_of_ok readSlot_append]
    · intro t ht
      split at ht
      next => cases ht
      next =>
        cases ht
        refine ⟨s.value, vs, rfl, ?_⟩
        rw [Target.read, Ends.bind_of_ok readSlot_append]
        rfl

theorem eval_call {f : String} {es : List Expr} (htick : tick c p m = (.ok (), m'))
    (h : Operands fuel c es m' vs m'') :
    ∃ first, eval (fuel + 1) c (.call f es p) m = invoke fuel c f vs first p m'' ∧
      ∀ t ∈ first, ∀ v ∈ vs.head?, t.read m'' = (.ok v, m'') := by
  obtain ⟨first, heval, hfirst⟩ := eval_call_front (f := f) htick h
  refine ⟨first, heval, fun t ht v hv => ?_⟩
  obtain ⟨w, rest, rfl, hread⟩ := hfirst t ht
  cases hv
  exact hread

/-- Nothing is evaluated without fuel. -/
theorem not_operands_zero {es : List Expr} : ¬Operands 0 c es m vs m' := by
  intro h
  cases h with
  | others hfront h => cases h
  | name h habove => cases h

/-- A number is within any limit. -/
theorem checkSize_of_extent {v : Value} (h : v.extent = ⟨0, 0, 0⟩) : checkSize c v p m = (.ok (), m) := by
  have hexceeds (limit : ℕ) : Limits.exceeds limit 0 = false := by simp [Limits.exceeds]
  simp only [checkSize, checkExtent, h, hexceeds]
  rfl

theorem callBuiltin_of_done {name : String} {v : Value} {first : Option Target}
    (hcall : Builtin.call? name vs = some (.done v)) (hv : v.extent = ⟨0, 0, 0⟩)
    (hfirst : ∀ t ∈ first, ∃ w, t.read m = (.ok w, m) ∧ w.extent = ⟨0, 0, 0⟩) :
    callBuiltin c name vs first p m = (.ok v, m) := by
  have hsize : checkSize c v p m = (.ok (), m) := checkSize_of_extent hv
  unfold callBuiltin
  rw [hcall]
  cases first with
  | none => exact Ends.bind_of_ok hsize
  | some t =>
    obtain ⟨w, hread, hw⟩ := hfirst t rfl
    dsimp only
    rw [Ends.bind_of_ok hread, Ends.bind_of_ok (checkSize_of_extent hw)]
    exact Ends.bind_of_ok hsize

theorem invoke_division (hc : ∀ f ∈ c.functions, f.Scripted) {first : Option Target}
    (hfirst : ∀ t ∈ first, t.read m = (.ok (.int a), m)) :
    invoke (fuel + 1) c "/" [.int a, .int b] first p m =
      (.ok (.float (FloatMath.ofInt a / FloatMath.ofInt b)), m) := by
  rw [invoke, function?_eq_none hc rfl]
  exact callBuiltin_of_done rfl rfl fun t ht => ⟨_, hfirst t ht, rfl⟩

end Operators

/-- The quotient towards zero, or why there is none. -/
def towardsZero (a b : ℤ) : Except String ℤ :=
  if b = 0 then .error ("Division by zero: " ++ Builtin.written a "/" b)
  else if a = leastInteger ∧ b = -1 then .error ("Division overflow: " ++ Builtin.written a "/" b)
  else .ok (a.tdiv b)

/-- The only quotient of integers that is none is that of the least one and minus one. -/
theorem inIntegerRange?_tdiv {a b : ℤ} (ha : inIntegerRange? a = some a) (hb : b ≠ 0) :
    inIntegerRange? (a.tdiv b) = if a = leastInteger ∧ b = -1 then none else some (a.tdiv b) := by
  have hrange : leastInteger ≤ a ∧ a ≤ greatestInteger := by
    unfold inIntegerRange? at ha
    split at ha
    next h => exact h
    next => cases ha
  have habs : (a.tdiv b).natAbs = a.natAbs / b.natAbs := Int.natAbs_tdiv a b
  have hquotient : leastInteger ≤ a.tdiv b ∧ a.tdiv b ≤ greatestInteger ↔ ¬(a = leastInteger ∧ b = -1) := by
    unfold leastInteger greatestInteger at *
    by_cases hone : b.natAbs = 1
    · rcases Int.natAbs_eq_iff.mp hone with rfl | rfl
      · rw [Int.natCast_one, Int.tdiv_one]
        omega
      · rw [Int.natCast_one, Int.tdiv_neg, Int.tdiv_one]
        omega
    · have hhalf : a.natAbs / b.natAbs ≤ a.natAbs / 2 := Nat.div_le_div_left (by omega) (by decide)
      omega
  simp only [inIntegerRange?, hquotient, ite_not]

section Assignments

variable {c : Setting} {p : Position} {m : Machine} {a b : ℤ}

/-- How a division in place ends: the quotient towards zero is stored, or there is none. -/
def inPlace {α : Type} (a b : ℤ) (p : Position) (m : Machine) (store : ℤ → Except Interrupt α × Machine) :
    Except Interrupt α × Machine :=
  match towardsZero a b with
  | .ok n => store n
  | .error text => (.error (.failure ⟨.arithmetic text, p, []⟩), m)

/-- What an assignment that divides integers combines. -/
theorem combine_division (ha : inIntegerRange? a = some a) :
    combine (some "/") (.int a) (.int b) p m = inPlace a b p m fun n => (.ok (.int n), m) := by
  have hassign : Builtin.assign? "/" (.int a) (.int b) =
      if b = 0 then some (.failed (.arithmetic ("Division by zero: " ++ Builtin.written a "/" b)))
      else some (Builtin.checked (a.tdiv b) ("Division overflow: " ++ Builtin.written a "/" b)) := rfl
  rw [combine, hassign, inPlace, towardsZero]
  by_cases hb : b = 0
  · rw [if_pos hb, if_pos hb]
    rfl
  · rw [if_neg hb, if_neg hb, Builtin.checked, inIntegerRange?_tdiv ha hb]
    by_cases hleast : a = leastInteger ∧ b = -1
    · rw [if_pos hleast, if_pos hleast]
      rfl
    · rw [if_neg hleast, if_neg hleast]
      rfl

theorem evalStmt_division (ha : inIntegerRange? a = some a) {fuel base steps : ℕ} {m' : Machine} {e : Expr}
    {q : Position} (above : List Slot) {below : List Slot} {s : Slot} (htick : tick c p m = (.ok (), m'))
    (h : eval fuel c e m' = (.ok (.int b), ⟨above ++ s :: below, steps⟩)) (habove : lacks above s.name = true)
    (hconstant : s.constant = false) (hold : s.value = .int a) :
    evalStmt (fuel + 1) c base (.assign (some "/") (.name s.name q) e p) m =
      inPlace a b p ⟨above ++ s :: below, steps⟩ fun n =>
        (.ok .unit, ⟨above ++ { s with value := .int n } :: below, steps⟩) := by
  have hvalue : (tick c p >>= fun _ => eval fuel c e) m = (.ok (.int b), ⟨above ++ s :: below, steps⟩) :=
    (Ends.bind_of_ok htick).trans h
  have hcombine (m : Machine) := combine_division (p := p) (m := m) (b := b) ha
  rw [← hold] at hcombine
  unfold inPlace at hcombine ⊢
  cases hquotient : towardsZero a b with
  | error text =>
    rw [hquotient] at hcombine
    rw [evalStmt_assign_name above hvalue habove hconstant]
    exact Ends.bind_of_error (hcombine _)
  | ok n =>
    rw [hquotient] at hcombine
    exact evalStmt_assign above hvalue habove hconstant hcombine fun _ _ => checkSize_of_extent rfl

/-- The part of a container that the last link of a chain names, and its value. -/
inductive Names : Value → Step → Key → Value → Prop
  | element {items i n v place bracket} (hi : position? i items.length = some n) (hv : items[n]? = some v) :
      Names (.array items) (.index (.int i) place bracket) (.element n) v
  | entry {keys values k v place bracket} (hv : (NameMap.zip keys values).find? k = some v) :
      Names (.map keys values) (.index (.string k) place bracket) (.entry k) v
  | property {keys values k v place} (hv : (NameMap.zip keys values).find? k = some v) :
      Names (.map keys values) (.property k place) (.entry k) v

theorem write_ok (t : Target) (v : Value) : ∃ m', t.write v m = (.ok (), m') := by
  cases t with
  | part slot path => exact ⟨_, rfl⟩
  | loose w => exact ⟨_, rfl⟩

theorem assignPart_division (ha : inIntegerRange? a = some a) (t : Target) (k : Key) :
    assignPart c (some "/") t k (some (.int a)) (.int b) p m =
      inPlace a b p m fun n => (t.enter k (.int a)).write (.int n) m := by
  have hcombine := combine_division (p := p) (m := m) (b := b) ha
  have hpart : assignPart c (some "/") t k (some (.int a)) (.int b) p = (do
      let v ← combine (some "/") (.int a) (.int b) p
      (t.enter k (.int a)).write v
      checkSize c v p : Run Unit) := rfl
  rw [hpart]
  unfold inPlace at hcombine ⊢
  cases hquotient : towardsZero a b with
  | error text =>
    rw [hquotient] at hcombine
    exact Ends.bind_of_error hcombine
  | ok n =>
    rw [hquotient] at hcombine
    obtain ⟨m', hwrite⟩ := write_ok (m := m) (t.enter k (.int a)) (.int n)
    rw [Ends.bind_of_ok hcombine, Ends.bind_of_ok hwrite]
    exact (checkSize_of_extent rfl).trans hwrite.symm

theorem assignStep_division (ha : inIntegerRange? a = some a) {t : Target} {container : Value} {s : Step}
    {k : Key} (hread : t.read m = (.ok container, m)) (h : Names container s k (.int a)) :
    assignStep c (some "/") t s (.int b) p m =
      inPlace a b p m fun n => (t.enter k (.int a)).write (.int n) m := by
  rw [← assignPart_division (c := c) ha, assignStep, Ends.bind_of_ok hread]
  cases h with
  | element hi hv => simp only [hi, hv]
  | entry hv => simp only [hv]
  | property hv => simp only [hv]

end Assignments

/-- In an expression a division of integers gives the quotient of the widened operands. An assignment with the
operator puts the quotient towards zero in the place of a variable or of an element, and fails where there is
none. The assignment of its own quotient to a variable is simplified to one with the operator, that to an
element is not. -/
theorem integer_division {c : Setting} (hc : ∀ f ∈ c.functions, f.Scripted) {a b : ℤ}
    (ha : inIntegerRange? a = some a) :
    (∀ fuel l r p m m' m'', tick c p m = (.ok (), m') → Operands fuel c [l, r] m' [.int a, .int b] m'' →
      eval (fuel + 1) c (.call "/" [l, r] p) m =
        (.ok (.float (FloatMath.ofInt a / FloatMath.ofInt b)), m'')) ∧
    (∀ fuel base above below s q e p m m' steps, tick c p m = (.ok (), m') →
      eval fuel c e m' = (.ok (.int b), ⟨above ++ s :: below, steps⟩) → lacks above s.name = true →
      s.constant = false → s.value = .int a →
      evalStmt (fuel + 1) c base (.assign (some "/") (.name s.name q) e p) m =
        inPlace a b p ⟨above ++ s :: below, steps⟩ fun n =>
          (.ok .unit, ⟨above ++ { s with value := .int n } :: below, steps⟩)) ∧
    (∀ t container s k p m, t.read m = (.ok container, m) → Names container s k (.int a) →
      assignStep c (some "/") t s (.int b) p m =
        inPlace a b p m fun n => (t.enter k (.int a)).write (.int n) m) ∧
    (∀ known keep x p q e r s,
      (Stmt.assign none (.name x p) (.call "/" [.name x q, e] r) s).simplify known keep =
        (Stmt.assign (some "/") (.name x p) e r).simplify known keep) ∧
    (∀ known keep root links l e r s,
      (Stmt.assign none (.chain root links) (.call "/" [l, e] r) s).simplify known keep =
        .assign none ((Expr.chain root links).simplify known)
          (.call "/" [l.simplify known, e.simplify known] r) s) := by
  refine ⟨?_, ?_, ?_, ?_, fun _ _ _ _ _ _ _ _ => rfl⟩
  · intro fuel l r p m m' m'' htick h
    obtain ⟨first, heval, hfirst⟩ := eval_call htick h
    cases fuel with
    | zero => exact absurd h not_operands_zero
    | succ fuel => exact heval.trans (invoke_division hc fun t ht => hfirst t ht _ rfl)
  · intro fuel base above below s q e p m m' steps htick h habove hconstant hold
    exact evalStmt_division ha above htick h habove hconstant hold
  · intro t container s k p m hread h
    exact assignStep_division ha hread h
  · intro known keep x p q e r s
    rw [Stmt.simplify, if_pos ⟨rfl, rfl⟩, Stmt.simplify]
    intro f y q' e' r' hnone
    cases hnone

/-- In the function of a preamble: the operator, an assignment that divides by two, and one that divides by
zero. -/
theorem integer_division_half : ∃ s p,
    [Query.loadGlobals "fn half(n) \x7b n / 2 \x7d", .bind "half(7)"].foldl Session.answering (.new {}) = s ∧
    s.expression = some p ∧
    let c : Setting := ⟨{}, Session.override p.functions s.preambleFunctions, 1⟩
    let scope (n : ℤ) : List Slot := [⟨"n", .int n, false⟩]
    eval 5 c (.call "/" [.name "n" ⟨1, 14⟩, .literal (.int 2) ⟨1, 18⟩] ⟨1, 16⟩) ⟨scope 7, 0⟩ =
        (.ok (.float 3.5), ⟨scope 7, 1⟩) ∧
      evalStmt 5 c 0 (.assign (some "/") (.name "n" ⟨1, 1⟩) (.literal (.int 2) ⟨1, 6⟩) ⟨1, 3⟩) ⟨scope 7, 0⟩ =
        (.ok .unit, ⟨scope 3, 1⟩) ∧
      evalStmt 5 c 0 (.assign (some "/") (.name "n" ⟨1, 1⟩) (.literal (.int 0) ⟨1, 6⟩) ⟨1, 3⟩) ⟨scope 7, 0⟩ =
        (.error (.failure ⟨.arithmetic "Division by zero: 7 / 0", ⟨1, 3⟩, []⟩), ⟨scope 7, 1⟩) := by
  let queries : List Query := [.loadGlobals "fn half(n) \x7b n / 2 \x7d", .bind "half(7)"]
  obtain ⟨p, hp⟩ := Option.isSome_iff_exists.mp
    (show (queries.foldl Session.answering (.new {})).expression.isSome = true by decide +kernel)
  refine ⟨_, p, rfl, hp, ?_⟩
  intro c scope
  have hc : ∀ f ∈ c.functions, f.Scripted := scripted_of_session rfl hp
  have hseven : inIntegerRange? 7 = some 7 := rfl
  have htwo := integer_division hc (b := 2) hseven
  have hzero := integer_division hc (b := 0) hseven
  have hquotient : FloatMath.ofInt 7 / FloatMath.ofInt 2 = 3.5 := by decide +kernel
  have hoperands : Operands 4 c [.name "n" ⟨1, 14⟩, .literal (.int 2) ⟨1, 18⟩] ⟨scope 7, 1⟩ [.int 7, .int 2]
      ⟨scope 7, 1⟩ := @Operands.name _ _ [] [] ⟨"n", .int 7, false⟩ _ _ _ _ _ rfl rfl
  rw [hquotient] at htwo
  refine ⟨htwo.1 _ _ _ _ _ ⟨scope 7, 1⟩ _ rfl hoperands, ?_, ?_⟩
  · exact htwo.2.1 _ _ [] [] ⟨"n", .int 7, false⟩ _ _ _ _ ⟨scope 7, 1⟩ 1 rfl rfl rfl rfl rfl
  · exact hzero.2.1 _ _ [] [] ⟨"n", .int 7, false⟩ _ _ _ _ ⟨scope 7, 1⟩ 1 rfl rfl rfl rfl rfl

/-- What an expression gives on its own. -/
def readingOf (expression : String) : Attempt Reading :=
  (Evaluator.call (Evaluator.bind (Session.new {}) expression).1 0 1 []).2

/-- Both ways to divide a variable in place truncate; of those to divide an element, only one does. -/
theorem division_in_place_truncates :
    readingOf "let n = 7; n /= 2; n" = .done (.number 3) ∧
    readingOf "let n = 7; n = n / 2; n" = .done (.number 3) ∧
    readingOf "let a = [7]; a[0] /= 2; a[0]" = .done (.number 3) ∧
    readingOf "let a = [7]; a[0] = a[0] / 2; a[0]" = .done (.number 3.5) ∧
    FloatMath.ofInt 7 / FloatMath.ofInt 2 ≠ 3 := by
  decide +kernel

end Script

end DerivedSignal
