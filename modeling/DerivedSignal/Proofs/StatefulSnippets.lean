import DerivedSignal.Proofs.SampleRecurrences
import DerivedSignal.Proofs.StatementSteps
import DerivedSignal.Proofs.TolerantComparison
import DerivedSignal.StandardSnippets

namespace DerivedSignal

open Script Transform

namespace StandardSnippets

/-- The slope of the line from one sample to the next, zero if their times are not apart. -/
def slope (q' q : Point) : Float := if Builtin.atMost q.x q'.x then 0 else (q.y - q'.y) / (q.x - q'.x)

/-- The area between two samples. -/
def trapezoid (q' q : Point) : Float := (q.y + q'.y) * (q.x - q'.x) / 2

/-- The rate of change at a sample. -/
def rate (p : ℕ → Point) : ℕ → Float
  | 0 => 0
  | n + 1 => slope (p n) (p (n + 1))

/-- The sum of the trapezoids up to a sample. -/
def area (p : ℕ → Point) : ℕ → Float
  | 0 => 0
  | n + 1 => area p n + trapezoid (p n) (p (n + 1))

/-- How far a sample is above the first one. -/
def rise (p : ℕ → Point) (n : ℕ) : Float := (p n).y - (p 0).y

section Programs

/-- The declaration of a variable on a line of its own. -/
def declaration (name : String) (value : Value) (line : ℕ) : Stmt :=
  .declare false name (some (.literal value ⟨line, name.length + 8⟩)) ⟨line, 5⟩

/-- The assignment to a variable. -/
def assignment (name : String) (value : Position → Expr) (line column : ℕ) : Stmt :=
  .assign none (.name name ⟨line, column⟩) (value ⟨line, column + name.length + 3⟩)
    ⟨line, column + name.length + 1⟩

/-- The statements that keep the sample, from a line on. -/
def keeping (line : ℕ) : List Stmt :=
  [assignment "first" (.literal (.bool false)) line 1, assignment "prev_t" (.name "time") (line + 1) 1,
    assignment "prev_v" (.name "value") (line + 2) 1]

def derivativePreamble : List Stmt :=
  [declaration "first" (.bool true) 2, declaration "prev_t" (.float 0) 3, declaration "prev_v" (.float 0) 4]

/-- Whether there is no time since the sample before. -/
def derivativeCondition : Expr :=
  .either (.name "first" ⟨2, 12⟩) (.call "<=" [.name "time" ⟨2, 21⟩, .name "prev_t" ⟨2, 29⟩] ⟨2, 26⟩)
    ⟨2, 18⟩

def derivativeQuotient : Expr :=
  .call "/" [.call "-" [.name "value" ⟨2, 52⟩, .name "prev_v" ⟨2, 60⟩] ⟨2, 58⟩,
    .call "-" [.name "time" ⟨2, 71⟩, .name "prev_t" ⟨2, 78⟩] ⟨2, 76⟩] ⟨2, 68⟩

def derivativeBranch : Stmt :=
  .branch derivativeCondition [.expr (.literal (.float 0) ⟨2, 38⟩)] [.expr derivativeQuotient]

def derivativeBody : List Stmt :=
  .declare false "d" (some (.statement derivativeBranch ⟨2, 9⟩)) ⟨2, 5⟩ ::
    keeping 3 ++ [.expr (.name "d" ⟨6, 1⟩)]

def integralPreamble : List Stmt := derivativePreamble ++ [declaration "area" (.float 0) 5]

def integralProduct : Expr :=
  .call "*" [.call "+" [.name "value" ⟨3, 14⟩, .name "prev_v" ⟨3, 22⟩] ⟨3, 20⟩,
    .call "-" [.name "time" ⟨3, 33⟩, .name "prev_t" ⟨3, 40⟩] ⟨3, 38⟩] ⟨3, 30⟩

def integralQuotient : Expr := .call "/" [integralProduct, .literal (.float 2) ⟨3, 50⟩] ⟨3, 48⟩

def integralSum : Stmt := .assign (some "+") (.name "area" ⟨3, 5⟩) integralQuotient ⟨3, 10⟩

def integralBranch : Stmt := .branch (.call "!" [.name "first" ⟨2, 5⟩] ⟨2, 4⟩) [integralSum] []

def integralBody : List Stmt := integralBranch :: keeping 5 ++ [.expr (.name "area" ⟨8, 1⟩)]

def offsetPreamble : List Stmt := [declaration "first" (.bool true) 2, declaration "offset" (.float 0) 3]

def offsetBody : List Stmt :=
  [.branch (.name "first" ⟨2, 4⟩)
      [assignment "offset" (.name "value") 3 5, assignment "first" (.literal (.bool false)) 4 5] [],
    .expr (.call "-" [.name "value" ⟨6, 1⟩, .name "offset" ⟨6, 9⟩] ⟨6, 7⟩)]

end Programs

section Loading

set_option maxRecDepth 100000

theorem parse_derivative_globals :
    Program.parse? {} derivative.globals = some ⟨derivativePreamble, []⟩ := by with_unfolding_all rfl

theorem parse_derivative_equation :
    Program.parse? {} derivative.equation = some ⟨derivativeBody, []⟩ := by with_unfolding_all rfl

theorem parse_integral_globals :
    Program.parse? {} integral.globals = some ⟨integralPreamble, []⟩ := by with_unfolding_all rfl

theorem parse_integral_equation :
    Program.parse? {} integral.equation = some ⟨integralBody, []⟩ := by with_unfolding_all rfl

theorem parse_offset_globals :
    Program.parse? {} removeOffset.globals = some ⟨offsetPreamble, []⟩ := by with_unfolding_all rfl

theorem parse_offset_equation :
    Program.parse? {} removeOffset.equation = some ⟨offsetBody, []⟩ := by with_unfolding_all rfl

end Loading

section Sessions

/-- The variables for a sample, and for whether there has been none. -/
def kept (q : Point) (first : Bool) : List Slot :=
  [⟨"prev_v", .float q.y, false⟩, ⟨"prev_t", .float q.x, false⟩, ⟨"first", .bool first, false⟩]

/-- The variables that keep the sample before. -/
def sampleBefore (p : ℕ → Point) : ℕ → List Slot
  | 0 => kept ⟨0, 0⟩ true
  | n + 1 => kept (p n) false

/-- The variable for a sum. -/
def total (a : Float) : Slot := ⟨"area", .float a, false⟩

/-- The variables for an offset, and for whether there has been none. -/
def offsetBy (y : Float) (first : Bool) : List Slot :=
  [⟨"offset", .float y, false⟩, ⟨"first", .bool first, false⟩]

/-- The session of a snippet with some variables. -/
def session (preamble body : List Stmt) (globals : List Slot) : Session :=
  ⟨{}, globals, some ⟨preamble, []⟩, some ⟨body, []⟩, none⟩

def derivativeSession (p : ℕ → Point) (n : ℕ) : Session :=
  session derivativePreamble derivativeBody (sampleBefore p n)

def integralSession (p : ℕ → Point) (n : ℕ) : Session :=
  session integralPreamble integralBody (total (area p (n - 1)) :: sampleBefore p n)

def offsetSession (p : ℕ → Point) : ℕ → Session
  | 0 => session offsetPreamble offsetBody (offsetBy 0 true)
  | _ + 1 => session offsetPreamble offsetBody (offsetBy (p 0).y false)

variable {preamble body : List Stmt} {globals globals' : List Slot}

/-- A snippet whose scripts have been parsed is loaded with the variables that its preamble declares. -/
theorem loads_of_parse {s : Snippet} (globals : List Slot)
    (hglobals : Program.parse? {} s.globals = some ⟨preamble, []⟩)
    (hequation : Program.parse? {} s.equation = some ⟨body, []⟩)
    (hsimple : (Program.mk preamble []).simplify [] = ⟨preamble, []⟩)
    (hrun : Session.runPreamble {} ⟨preamble, []⟩ = .done globals)
    (hbound : (Program.mk body []).simplify (Session.known globals) = ⟨body, []⟩) :
    ∃ loaded, Evaluator.loadGlobals (Session.new {}) s.globals = (loaded, .done ()) ∧
      Evaluator.bind loaded s.equation = (session preamble body globals, .done ()) := by
  refine ⟨⟨{}, globals, some ⟨preamble, []⟩, none, none⟩, ?_, ?_⟩
  · change (Session.new {}).loadGlobals s.globals = _
    have hlimits : (Session.new {}).limits = {} := rfl
    simp only [Session.loadGlobals, hlimits, hglobals, hsimple, hrun]
    rfl
  · change Session.bind _ s.equation = _
    simp only [Session.bind, hequation, hbound, session]

theorem reset_session (hrun : Session.runPreamble {} ⟨preamble, []⟩ = .done globals') :
    Evaluator.reset (session preamble body globals) = (session preamble body globals', .done ()) := by
  change Session.reset _ = _
  simp only [Session.reset, session, hrun]

/-- The session after a call that succeeds: what stands above the variables of the session is dropped. -/
theorem call_session (above : List Slot) {q : Point} {y : Float}
    (h : execute {} [] body (Session.sampleScope globals q.x q.y []) = (.ok (.float y), above ++ globals'))
    (hlength : globals'.length = globals.length) :
    (session preamble body globals).call q.x q.y [] =
      (session preamble body globals', .done (.number y)) := by
  have hfunctions : Session.override [] (session preamble body globals).preambleFunctions = [] := rfl
  simp only [Session.call, Session.evaluate, Session.merge, session] at hfunctions ⊢
  rw [hfunctions, h]
  simp [← hlength, Value.toReading]

end Sessions

section Calls

set_option maxRecDepth 100000

variable (k : ℕ)

section Keeping

variable {above globals : List Slot} {q' q : Point} {first : Bool} {base line steps : ℕ} {p : Position}

theorem eval_time (habove : lacks above "time" = true) (hsteps : steps < 50000) :
    eval (k + 1) ⟨{}, [], 0⟩ (.name "time" p) ⟨above ++ Session.sampleScope globals q.x q.y [], steps⟩ =
      (.ok (.float q.x), ⟨above ++ Session.sampleScope globals q.x q.y [], steps + 1⟩) := by
  have hlacks : lacks (above ++ [⟨Template.channelsVariable, .array [], false⟩,
      ⟨Template.valueVariable, .float q.y, false⟩]) "time" = true := by
    rw [lacks_append, habove]
    rfl
  simpa [Session.sampleScope, Template.timeVariable] using
    eval_name (s := ⟨"time", .float q.x, false⟩) hlacks hsteps

theorem eval_value (habove : lacks above "value" = true) (hsteps : steps < 50000) :
    eval (k + 1) ⟨{}, [], 0⟩ (.name "value" p) ⟨above ++ Session.sampleScope globals q.x q.y [], steps⟩ =
      (.ok (.float q.y), ⟨above ++ Session.sampleScope globals q.x q.y [], steps + 1⟩) := by
  have hlacks : lacks (above ++ [⟨Template.channelsVariable, .array [], false⟩]) "value" = true := by
    rw [lacks_append, habove]
    rfl
  simpa [Session.sampleScope, Template.valueVariable] using
    eval_name (s := ⟨"value", .float q.y, false⟩) hlacks hsteps

/-- The variables of a call for a sample after another one: between the sample and the variables that keep the
other one, there may be some. -/
def scope (between : List Slot) (q' q : Point) (first : Bool) : List Slot :=
  Session.sampleScope (between ++ kept q' first) q.x q.y []

/-- The variables of the statements that keep a sample. -/
def keepingNames : List String := ["value", "time", "first", "prev_t", "prev_v"]

/-- The sample is kept, whatever other variables there are. -/
theorem evalBody_keeping (above between : List Slot) {rest : List Stmt}
    (habove : keepingNames.all (lacks above) = true)
    (hbetween : keepingNames.all (lacks between) = true) (hsteps : steps < 40000) (hrest : rest ≠ []) :
    evalBody (k + 6) ⟨{}, [], 0⟩ base (keeping line ++ rest) ⟨above ++ scope between q' q first, steps⟩ =
      evalBody (k + 3) ⟨{}, [], 0⟩ base rest ⟨above ++ scope between q q false, steps + 5⟩ := by
  let held (q' : Point) (first : Bool) := above ++ scope between q' q first
  let inner := above ++ Session.sampleScope between q.x q.y []
  have hlacks : ∀ name ∈ ["first", "prev_t", "prev_v"], lacks inner name = true := by
    intro name hname
    have hsample : lacks (Session.sampleScope [] q.x q.y []) name = true := by
      fin_cases hname <;> rfl
    have hkept : name ∈ keepingNames := List.mem_append_right ["value", "time"] hname
    have hinner : inner = above ++ (Session.sampleScope [] q.x q.y [] ++ between) := rfl
    rw [hinner, lacks_append, lacks_append, hsample, List.all_eq_true.mp habove name hkept,
      List.all_eq_true.mp hbetween name hkept]
    rfl
  have hfirst : evalStmt (k + 5) ⟨{}, [], 0⟩ base (assignment "first" (.literal (.bool false)) line 1)
      ⟨held q' first, steps⟩ = (.ok .unit, ⟨held q' false, steps + 1⟩) := by
    have hscope (first : Bool) : held q' first = (inner ++ [⟨"prev_v", .float q'.y, false⟩,
        ⟨"prev_t", .float q'.x, false⟩]) ++ ⟨"first", .bool first, false⟩ :: [] := by
      simp [held, scope, inner, Session.sampleScope, kept]
    have hname : lacks (inner ++ [⟨"prev_v", .float q'.y, false⟩, ⟨"prev_t", .float q'.x, false⟩]) "first" =
        true := by
      rw [lacks_append, hlacks _ (by simp)]
      rfl
    rw [hscope, hscope]
    exact evalStmt_assign_plain (s := ⟨"first", .bool first, false⟩) (by omega) eval_literal hname rfl
  have htime : evalStmt (k + 4) ⟨{}, [], 0⟩ base (assignment "prev_t" (.name "time") (line + 1) 1)
      ⟨held q' false, steps + 1⟩ = (.ok .unit, ⟨held ⟨q.x, q'.y⟩ false, steps + 3⟩) := by
    have hscope (x : Float) : held ⟨x, q'.y⟩ false = (inner ++ [⟨"prev_v", .float q'.y, false⟩]) ++
        ⟨"prev_t", .float x, false⟩ :: [⟨"first", .bool false, false⟩] := by
      simp [held, scope, inner, Session.sampleScope, kept]
    have hname : lacks (inner ++ [⟨"prev_v", .float q'.y, false⟩]) "prev_t" = true := by
      rw [lacks_append, hlacks _ (by simp)]
      rfl
    have heval (position : Position) : eval (k + 3) ⟨{}, [], 0⟩ (.name "time" position)
        ⟨held ⟨q'.x, q'.y⟩ false, steps + 2⟩ = (.ok (.float q.x), ⟨held ⟨q'.x, q'.y⟩ false, steps + 3⟩) :=
      eval_time (k + 2) (List.all_eq_true.mp habove "time" (by decide)) (by omega)
    change evalStmt _ _ _ _ ⟨held ⟨q'.x, q'.y⟩ false, steps + 1⟩ = _
    rw [hscope] at heval ⊢
    rw [hscope]
    exact evalStmt_assign_plain (s := ⟨"prev_t", .float q'.x, false⟩) (by omega) (heval _) hname rfl
  have hvalue : evalStmt (k + 3) ⟨{}, [], 0⟩ base (assignment "prev_v" (.name "value") (line + 2) 1)
      ⟨held ⟨q.x, q'.y⟩ false, steps + 3⟩ = (.ok .unit, ⟨held q false, steps + 5⟩) := by
    have hscope (y : Float) : held ⟨q.x, y⟩ false = inner ++ ⟨"prev_v", .float y, false⟩ ::
        [⟨"prev_t", .float q.x, false⟩, ⟨"first", .bool false, false⟩] := by
      simp [held, scope, inner, Session.sampleScope, kept]
    have heval (position : Position) : eval (k + 2) ⟨{}, [], 0⟩ (.name "value" position)
        ⟨held ⟨q.x, q'.y⟩ false, steps + 4⟩ = (.ok (.float q.y), ⟨held ⟨q.x, q'.y⟩ false, steps + 5⟩) :=
      eval_value (k + 1) (List.all_eq_true.mp habove "value" (by decide)) (by omega)
    change evalStmt _ _ _ _ _ = (Except.ok Value.unit, (⟨held ⟨q.x, q.y⟩ false, steps + 5⟩ : Machine))
    rw [hscope] at heval ⊢
    rw [hscope]
    exact evalStmt_assign_plain (s := ⟨"prev_v", .float q'.y, false⟩) (by omega) (heval _)
      (hlacks "prev_v" (by simp)) rfl
  calc evalBody (k + 6) ⟨{}, [], 0⟩ base (keeping line ++ rest) ⟨held q' first, steps⟩
      = evalBody (k + 5) ⟨{}, [], 0⟩ base _ _ := evalBody_cons hfirst (by simp)
    _ = evalBody (k + 4) ⟨{}, [], 0⟩ base _ _ := evalBody_cons htime (by simp)
    _ = evalBody (k + 3) ⟨{}, [], 0⟩ base rest _ := evalBody_cons hvalue hrest

/-- A snippet whose first statement does the work, and that then keeps the sample and gives a variable. -/
theorem call_keeping {preamble : List Stmt} {s : Stmt} {name : String} {v : Value} {y : Float}
    (above between between' : List Slot) (habove : keepingNames.all (lacks above) = true)
    (hbetween : keepingNames.all (lacks between') = true) (hlength : between'.length = between.length)
    (hfirst : ∀ k, ∃ steps < 40000,
      evalStmt (k + 16) ⟨{}, [], 0⟩ (scope between q' q first).length s ⟨scope between q' q first, 0⟩ =
        (.ok v, ⟨above ++ scope between' q' q first, steps⟩))
    (hname : ∀ k steps, steps < 50000 →
      eval (k + 1) ⟨{}, [], 0⟩ (.name name p) ⟨above ++ scope between' q q false, steps⟩ =
        (.ok (.float y), ⟨above ++ scope between' q q false, steps + 1⟩)) :
    (session preamble (s :: keeping line ++ [.expr (.name name p)]) (between ++ kept q' first)).call
        q.x q.y [] =
      (session preamble (s :: keeping line ++ [.expr (.name name p)]) (between' ++ kept q false),
        .done (.number y)) := by
  obtain ⟨k, hk⟩ : ∃ k, plenty = k + 17 := ⟨plenty - 17, by decide +kernel⟩
  obtain ⟨steps, hsteps, hfirst⟩ := hfirst k
  have hbody : evalBody (k + 17) ⟨{}, [], 0⟩ (scope between q' q first).length
      (s :: keeping line ++ [.expr (.name name p)]) ⟨scope between q' q first, 0⟩ =
        (.ok (.float y), ⟨above ++ scope between' q q false, steps + 6⟩) := by
    have hlast : evalBody (k + 13) ⟨{}, [], 0⟩ (scope between q' q first).length [.expr (.name name p)]
        ⟨above ++ scope between' q q false, steps + 5⟩ = _ := hname (k + 11) (steps + 5) (by omega)
    calc _ = _ := evalBody_cons hfirst (by simp)
      _ = _ := evalBody_keeping (k + 10) above between' habove hbetween hsteps (by simp)
      _ = _ := hlast
  have hexecute : execute {} [] (s :: keeping line ++ [.expr (.name name p)]) (scope between q' q first) =
      (.ok (.float y), above ++ scope between' q q false) := by
    rw [execute, ending_of_plenty (hk ▸ hbody) (by simp)]
  have hscope : above ++ scope between' q q false =
      (above ++ Session.sampleScope [] q.x q.y []) ++ (between' ++ kept q false) := by
    simp [scope, Session.sampleScope]
  rw [hscope] at hexecute
  exact call_session _ hexecute (by simp [hlength, kept])

end Keeping

section Derivative

variable (q' q : Point) (first : Bool)

theorem evalBool_derivativeCondition :
    evalBool (k + 13) ⟨{}, [], 0⟩ derivativeCondition ⟨scope [] q' q first, 2⟩ =
      (.ok (first || Builtin.atMost q.x q'.x), ⟨scope [] q' q first, bif first then 3 else 5⟩) := by
  cases first with
  | true => with_unfolding_all rfl
  | false =>
    rw [Bool.false_or]
    with_unfolding_all rfl

theorem eval_derivativeQuotient :
    eval (k + 10) ⟨{}, [], 0⟩ derivativeQuotient ⟨scope [] q' q false, 5⟩ =
      (.ok (.float ((q.y - q'.y) / (q.x - q'.x))), ⟨scope [] q' q false, 10⟩) := by
  have hdividend : eval (k + 8) ⟨{}, [], 0⟩
      (.call "-" [.name "value" ⟨2, 52⟩, .name "prev_v" ⟨2, 60⟩] ⟨2, 58⟩) ⟨scope [] q' q false, 6⟩ =
        (.ok (.float (q.y - q'.y)), ⟨scope [] q' q false, 8⟩) := by
    with_unfolding_all rfl
  have hdivisor : eval (k + 7) ⟨{}, [], 0⟩
      (.call "-" [.name "time" ⟨2, 71⟩, .name "prev_t" ⟨2, 78⟩] ⟨2, 76⟩) ⟨scope [] q' q false, 8⟩ =
        (.ok (.float (q.x - q'.x)), ⟨scope [] q' q false, 10⟩) := by
    with_unfolding_all rfl
  generalize q.y - q'.y = dividend at hdividend ⊢
  generalize q.x - q'.x = divisor at hdivisor ⊢
  have hoperands := evalAll_cons hdividend (evalAll_cons hdivisor evalAll_nil)
  exact (eval_call_call ((tick_bind (by decide)).trans hoperands)).trans (by with_unfolding_all rfl)

/-- The comparison decides between zero and the quotient. -/
theorem evalStmt_derivativeBranch : ∃ steps < 40000,
    evalStmt (k + 14) ⟨{}, [], 0⟩ 6 derivativeBranch ⟨scope [] q' q first, 1⟩ =
      (.ok (.float (if first then 0 else slope q' q)), ⟨scope [] q' q first, steps⟩) := by
  have hcondition : (tick ⟨{}, [], 0⟩ derivativeCondition.place >>= fun _ =>
      evalBool (k + 13) ⟨{}, [], 0⟩ derivativeCondition) ⟨scope [] q' q first, 1⟩ = _ :=
    (tick_bind (by decide)).trans (evalBool_derivativeCondition k q' q first)
  rw [slope]
  cases first with
  | true => exact ⟨3, by decide, evalStmt_branch hcondition⟩
  | false =>
    rw [Bool.false_or, cond_false] at hcondition
    cases hclose : Builtin.atMost q.x q'.x with
    | true =>
      rw [hclose] at hcondition
      exact ⟨5, by decide, evalStmt_branch hcondition⟩
    | false =>
      rw [hclose] at hcondition
      have hquotient := eval_derivativeQuotient k q' q
      rw [if_neg Bool.false_ne_true, if_neg Bool.false_ne_true]
      generalize (q.y - q'.y) / (q.x - q'.x) = y at hquotient ⊢
      have hblock : evalBlock (k + 13) ⟨{}, [], 0⟩ [.expr derivativeQuotient] ⟨scope [] q' q false, 5⟩ =
          (.ok (.float y), ⟨scope [] q' q false, 10⟩) := evalBlock_singleton (evalStmt_expr hquotient) rfl
      exact ⟨10, by decide, (evalStmt_branch hcondition).trans hblock⟩

theorem call_derivative :
    (session derivativePreamble derivativeBody (kept q' first)).call q.x q.y [] =
      (session derivativePreamble derivativeBody (kept q false),
        .done (.number (if first then 0 else slope q' q))) := by
  have hbranch (k : ℕ) := evalStmt_derivativeBranch k q' q first
  generalize (if first then 0 else slope q' q) = y at hbranch ⊢
  refine call_keeping (v := .unit) [⟨"d", .float y, false⟩] [] [] rfl rfl rfl (fun k => ?_) ?_
  · obtain ⟨steps, hsteps, hbranch⟩ := hbranch k
    have hvalue : (tick ⟨{}, [], 0⟩ ⟨2, 5⟩ >>= fun _ =>
        eval (k + 15) ⟨{}, [], 0⟩ (.statement derivativeBranch ⟨2, 9⟩)) ⟨scope [] q' q first, 0⟩ =
          (.ok (.float y), ⟨scope [] q' q first, steps⟩) :=
      (tick_bind (by decide)).trans (eval_statement hbranch rfl)
    exact ⟨steps, hsteps, evalStmt_declare hvalue⟩
  · intro k steps hsteps
    exact @eval_name k steps _ [] _ ⟨"d", .float y, false⟩ [] 0 rfl hsteps

end Derivative

section Integral

variable (q' q : Point) (first : Bool) (a : Float)

/-- A sum with the trapezoid between two samples, if there are two. -/
def extended : Float := if first then a else a + trapezoid q' q

theorem eval_integralQuotient : eval (k + 10) ⟨{}, [], 0⟩ integralQuotient ⟨scope [total a] q' q false, 3⟩ =
    (.ok (.float (trapezoid q' q)), ⟨scope [total a] q' q false, 9⟩) := by
  have hsum : eval (k + 6) ⟨{}, [], 0⟩ (.call "+" [.name "value" ⟨3, 14⟩, .name "prev_v" ⟨3, 22⟩] ⟨3, 20⟩)
      ⟨scope [total a] q' q false, 5⟩ = (.ok (.float (q.y + q'.y)), ⟨scope [total a] q' q false, 7⟩) := by
    with_unfolding_all rfl
  have htime : eval (k + 5) ⟨{}, [], 0⟩ (.call "-" [.name "time" ⟨3, 33⟩, .name "prev_t" ⟨3, 40⟩] ⟨3, 38⟩)
      ⟨scope [total a] q' q false, 7⟩ = (.ok (.float (q.x - q'.x)), ⟨scope [total a] q' q false, 9⟩) := by
    with_unfolding_all rfl
  rw [trapezoid]
  generalize q.y + q'.y = sum at hsum ⊢
  generalize q.x - q'.x = time at htime ⊢
  have hfactors := evalAll_cons hsum (evalAll_cons htime evalAll_nil)
  have hproduct : eval (k + 8) ⟨{}, [], 0⟩ integralProduct ⟨scope [total a] q' q false, 4⟩ =
      (.ok (.float (sum * time)), ⟨scope [total a] q' q false, 9⟩) :=
    (eval_call_call ((tick_bind (by decide)).trans hfactors)).trans (by with_unfolding_all rfl)
  generalize sum * time = product at hproduct ⊢
  exact (eval_call_call ((tick_bind (by decide)).trans
    (evalAll_cons hproduct (evalAll_cons eval_literal evalAll_nil)))).trans (by with_unfolding_all rfl)

/-- The trapezoid is added, unless there is only one sample. -/
theorem evalStmt_integralBranch : ∃ steps < 40000,
    evalStmt (k + 14) ⟨{}, [], 0⟩ 7 integralBranch ⟨scope [total a] q' q first, 0⟩ =
      (.ok .unit, ⟨scope [total (extended q' q first a)] q' q first, steps⟩) := by
  cases first with
  | true => exact ⟨2, by decide, by with_unfolding_all rfl⟩
  | false =>
    have hcondition : evalBool (k + 13) ⟨{}, [], 0⟩ (.call "!" [.name "first" ⟨2, 5⟩] ⟨2, 4⟩)
        ⟨scope [total a] q' q false, 1⟩ = (.ok true, ⟨scope [total a] q' q false, 2⟩) := by
      with_unfolding_all rfl
    have htrapezoid := eval_integralQuotient k q' q a
    rw [extended, if_neg Bool.false_ne_true]
    generalize trapezoid q' q = t at htrapezoid ⊢
    have hsum : evalStmt (k + 11) ⟨{}, [], 0⟩ 7 integralSum ⟨scope [total a] q' q false, 2⟩ =
        (.ok .unit, ⟨scope [total (a + t)] q' q false, 9⟩) :=
      evalStmt_assign (Session.sampleScope [] q.x q.y []) (s := total a)
        ((tick_bind (by decide)).trans htrapezoid) rfl rfl (fun _ => rfl) (fun _ _ => rfl)
    have hblock : evalBlock (k + 13) ⟨{}, [], 0⟩ [integralSum] ⟨scope [total a] q' q false, 2⟩ =
        (.ok .unit, ⟨scope [total (a + t)] q' q false, 9⟩) := evalBlock_singleton hsum rfl
    exact ⟨9, by decide, (evalStmt_branch ((tick_bind (by decide)).trans hcondition)).trans hblock⟩

theorem call_integral :
    (session integralPreamble integralBody (total a :: kept q' first)).call q.x q.y [] =
      (session integralPreamble integralBody (total (extended q' q first a) :: kept q false),
        .done (.number (extended q' q first a))) := by
  have hbranch (k : ℕ) := evalStmt_integralBranch k q' q first a
  generalize extended q' q first a = b at hbranch ⊢
  refine call_keeping [] [total a] [total b] rfl rfl rfl (fun k => hbranch (k + 2)) ?_
  intro k steps hsteps
  exact @eval_name k steps _ (Session.sampleScope [] q.x q.y []) _ (total b) [] 0 rfl hsteps

end Integral

theorem call_offset (q : Point) (y : Float) (first : Bool) :
    (session offsetPreamble offsetBody (offsetBy y first)).call q.x q.y [] =
      (session offsetPreamble offsetBody (offsetBy (if first then q.y else y) false),
        .done (.number (q.y - if first then q.y else y))) := by
  cases first with
  | true => with_unfolding_all rfl
  | false => with_unfolding_all rfl

end Calls

section Recurrences

set_option maxRecDepth 100000

theorem computes_derivative : derivative.Computes rate derivativeSession where
  undelimited := Template.undelimited_of_not_mem (by decide +kernel)
  loads := by
    obtain ⟨loaded, hload, hbind⟩ := loads_of_parse (kept ⟨0, 0⟩ true) parse_derivative_globals
      parse_derivative_equation rfl (by with_unfolding_all rfl) (by with_unfolding_all rfl)
    exact ⟨loaded, hload, fun _ => hbind⟩
  calls p n := by
    cases n with
    | zero => exact call_derivative ⟨0, 0⟩ (p 0) true
    | succ n => exact call_derivative (p n) (p (n + 1)) false
  resets p n q := reset_session (by with_unfolding_all rfl)

theorem computes_integral : integral.Computes area integralSession where
  undelimited := Template.undelimited_of_not_mem (by decide +kernel)
  loads := by
    obtain ⟨loaded, hload, hbind⟩ := loads_of_parse (total 0 :: kept ⟨0, 0⟩ true) parse_integral_globals
      parse_integral_equation rfl (by with_unfolding_all rfl) (by with_unfolding_all rfl)
    exact ⟨loaded, hload, fun _ => hbind⟩
  calls p n := by
    cases n with
    | zero => exact call_integral ⟨0, 0⟩ (p 0) true 0
    | succ n => exact call_integral (p n) (p (n + 1)) false (area p n)
  resets p n q := reset_session (by with_unfolding_all rfl)

theorem computes_removeOffset : removeOffset.Computes rise offsetSession where
  undelimited := Template.undelimited_of_not_mem (by decide +kernel)
  loads := by
    obtain ⟨loaded, hload, hbind⟩ := loads_of_parse (offsetBy 0 true) parse_offset_globals
      parse_offset_equation rfl (by with_unfolding_all rfl) (by with_unfolding_all rfl)
    exact ⟨loaded, hload, fun _ => hbind⟩
  calls p n := by
    cases n with
    | zero => exact call_offset (p 0) 0 true
    | succ n => exact call_offset (p (n + 1)) (p 0).y false
  resets p n q := by
    cases n <;> exact reset_session (by with_unfolding_all rfl)

end Recurrences

/-- The stateful snippets compile for any linked series, and no update of a run of them fails. It leaves in the
output a point for each linked sample, with the value of the recurrence. The rate of change is zero where time
does not increase. -/
theorem stateful_snippets_compute {s : Snippet} {output : (ℕ → Point) → ℕ → Float}
    (hs : (s, output) ∈ [(derivative, rate), (integral, area), (removeOffset, rise)]) (linked : String) :
    (∃ start fresh, compile (s.instantiate linked) (Session.new {}) = (start, .done fresh)) ∧
    (∀ t r count, IncrementalRun (s.instantiate linked) {} t r count →
      ∃ t' r' n, t.update r = (t', r', .done n) ∧
        ∀ series p size, r.find? linked = some series → series.points = (List.range size).map p →
          r'.find? s.name = some ⟨(List.range size).map fun i => ⟨(p i).x, output p i⟩, none⟩) ∧
    (∀ p i, (p i).x.isFinite = true → (p (i + 1)).x.isFinite = true → (p (i + 1)).x ≤ (p i).x →
      rate p (i + 1) = 0) := by
  obtain ⟨behind, hcomputes⟩ : ∃ behind, s.Computes output behind := by
    fin_cases hs
    · exact ⟨_, computes_derivative⟩
    · exact ⟨_, computes_integral⟩
    · exact ⟨_, computes_removeOffset⟩
  refine ⟨⟨_, _, hcomputes.compile_eq linked fun _ => ⟨0, 0⟩⟩, fun _ _ _ h => hcomputes.update_run h, ?_⟩
  intro p i hp hq hle
  exact if_pos (Builtin.atMost_of_le hq hp hle)

/-- A run over three samples, two of them at one time. -/
theorem stateful_snippets_compute_derivative : ∃ t r, IncrementalRun (derivative.instantiate "x") {} t r 0 ∧
    r.find? "x" = some ⟨[⟨0, 1⟩, ⟨2, 4⟩, ⟨2, 5⟩], none⟩ ∧ ∃ t' r' n, t.update r = (t', r', .done n) ∧
      r'.find? "derivative" = some ⟨[⟨0, 0⟩, ⟨2, 1.5⟩, ⟨2, 0⟩], none⟩ := by
  let points : List Point := [⟨0, 1⟩, ⟨2, 4⟩, ⟨2, 5⟩]
  have hs : (derivative, rate) ∈ [(derivative, rate), (integral, area), (removeOffset, rise)] := .head _
  obtain ⟨t, r, hrun, hx⟩ : ∃ t r, IncrementalRun (derivative.instantiate "x") {} t r 0 ∧
      r.find? "x" = some ⟨points, none⟩ :=
    computes_derivative.exists_run (by decide) (by decide +kernel) (by decide +kernel)
  obtain ⟨t', r', n, hu, hsamples⟩ := (stateful_snippets_compute hs "x").2.1 _ _ _ hrun
  have houtput := hsamples _ (fun i => points.getD i ⟨0, 0⟩) 3 hx rfl
  exact ⟨t, r, hrun, hx, t', r', n, hu, houtput.trans (by decide +kernel)⟩

/-- Times that differ by a rounding error count as equal, though they are not. -/
theorem derivative_of_close_times : ∃ t r, IncrementalRun (derivative.instantiate "x") {} t r 0 ∧
    r.find? "x" = some ⟨[⟨1, 0⟩, ⟨1.0000000000000002, 1⟩], none⟩ ∧ (∃ t' r' n, t.update r = (t', r', .done n) ∧
      r'.find? "derivative" = some ⟨[⟨1, 0⟩, ⟨1.0000000000000002, 0⟩], none⟩) ∧
    ¬(1.0000000000000002 : Float) ≤ 1 ∧ (0 : Float) ≠ (1 - 0) / (1.0000000000000002 - 1) := by
  let points : List Point := [⟨1, 0⟩, ⟨1.0000000000000002, 1⟩]
  obtain ⟨t, r, hrun, hx⟩ : ∃ t r, IncrementalRun (derivative.instantiate "x") {} t r 0 ∧
      r.find? "x" = some ⟨points, none⟩ :=
    computes_derivative.exists_run (by decide) (by decide +kernel) (by decide +kernel)
  obtain ⟨t', r', n, hu, hsamples⟩ := computes_derivative.update_run hrun
  have houtput := hsamples _ (fun i => points.getD i ⟨0, 0⟩) 2 hx rfl
  refine ⟨t, r, hrun, hx, ⟨t', r', n, hu, houtput.trans (by decide +kernel)⟩, ?_, ?_⟩
  · decide +kernel
  · decide +kernel

end StandardSnippets

end DerivedSignal
