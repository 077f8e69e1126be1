import DerivedSignal.Proofs.GlobalVariables
import DerivedSignal.Proofs.MentionedNames
import DerivedSignal.Proofs.ParsedCalls

namespace DerivedSignal

namespace Script

/-- The statements end the whole program, in a `rate_limit` without a step. -/
def BreaksOff (limits : Limits) (functions : List Function) (body : List Stmt) (scope : List Slot) : Prop :=
  ∃ arguments, (execute limits functions body scope).1 = .error (.abort "rate_limit" arguments) ∧
    OutOfDomain arguments

/-- The statements go on for ever. -/
def Endless (limits : Limits) (functions : List Function) (body : List Stmt) (scope : List Slot) : Prop :=
  (execute limits functions body scope).1 = .error .exhausted

/-- The statements have no end of their own. -/
def Lost : Breakdown → Limits → List Function → List Stmt → List Slot → Prop
  | .panic => BreaksOff
  | .endless => Endless

section Execute

variable {limits : Limits} {functions : List Function} {body : List Stmt} {scope : List Slot}

/-- Nothing but a `rate_limit` without a step ends the whole program. -/
theorem breaksOff_iff : BreaksOff limits functions body scope ↔
    ∃ f arguments, (execute limits functions body scope).1 = .error (.abort f arguments) := by
  constructor
  · rintro ⟨arguments, h, -⟩
    exact ⟨_, arguments, h⟩
  · rintro ⟨f, arguments, h⟩
    obtain ⟨-, hcall⟩ := call?_of_execute (N := fun _ => True) (fun f _ => bodyCallsOnly_true f.body)
      (bodyCallsOnly_true body) h
    obtain ⟨rfl, hdomain⟩ := Builtin.call?_eq_abort.mp hcall
    exact ⟨arguments, h, hdomain⟩

theorem lost_iff {why : Breakdown} : Lost why limits functions body scope ↔
    match why with
    | .panic => ∃ f arguments, (execute limits functions body scope).1 = .error (.abort f arguments)
    | .endless => (execute limits functions body scope).1 = .error .exhausted := by
  cases why with
  | panic => exact breaksOff_iff
  | endless => exact Iff.rfl

theorem not_breaksOff (hf : FunctionsCallOnly (· ≠ "rate_limit") functions)
    (hb : BodyCallsOnly (· ≠ "rate_limit") body) : ¬ BreaksOff limits functions body scope := by
  rintro ⟨arguments, h, -⟩
  exact (call?_of_execute hf hb h).1 rfl

end Execute

end Script

open Script

/-- The texts that come with what a session is asked. -/
def Query.sources : Query → List String
  | .loadGlobals source | .bind source => [source]
  | .reset | .checkpoint | .restore | .call _ _ _ => []

namespace Session

/-- What a session answers. -/
def reply (s : Session) : Query → Attempt (Option Reading)
  | .loadGlobals source => (Evaluator.loadGlobals s source).2.map fun _ => none
  | .bind source => (Evaluator.bind s source).2.map fun _ => none
  | .reset => (Evaluator.reset s).2.map fun _ => none
  | .checkpoint | .restore => .done none
  | .call time value channels => (Evaluator.call s time value channels).2.map some

/-- What a session is asked runs statements of which `P` holds, those of the preamble or of the expression. -/
def Runs (P : Limits → List Function → List Stmt → List Slot → Prop) (s : Session) : Query → Prop
  | .loadGlobals source => ∃ p, Program.parse? s.limits source = some p ∧
      P s.limits (p.simplify []).functions (p.simplify []).body []
  | .reset => ∃ p, s.preamble = some p ∧ P s.limits p.functions p.body []
  | .call time value channels => ∃ p, s.expression = some p ∧
      P s.limits (override p.functions s.preambleFunctions) p.body (sampleScope s.globals time value channels)
  | .bind _ | .checkpoint | .restore => False

/-- What a session is asked comes to a `rate_limit` without a step, in the preamble or the expression. -/
abbrev Breaks (s : Session) (q : Query) : Prop := s.Runs BreaksOff q

variable {why : Breakdown}

theorem map_eq_abort {α β : Type} {f : α → β} {a : Attempt α} : a.map f = .abort why ↔ a = .abort why := by
  cases a <;> simp [Attempt.map]

theorem runPreamble_eq_abort {limits : Limits} {p : Program} :
    runPreamble limits p = .abort why ↔ Lost why limits p.functions p.body [] := by
  rw [lost_iff]
  unfold runPreamble
  rcases execute limits p.functions p.body [] with ⟨result, globals⟩
  cases why <;> rcases result with (_ | _ | _ | _ | _ | _) | _ <;> simp

theorem loadGlobals_eq_abort {s : Session} {source : String} :
    (s.loadGlobals source).2 = .abort why ↔ s.Runs (Lost why) (.loadGlobals source) := by
  simp only [Runs, ← runPreamble_eq_abort]
  unfold loadGlobals
  cases Program.parse? s.limits source with
  | none => simp
  | some p => cases hrun : runPreamble s.limits (p.simplify []) <;> simp [hrun]

theorem reset_eq_abort {s : Session} : s.reset.2 = .abort why ↔ s.Runs (Lost why) .reset := by
  simp only [Runs, ← runPreamble_eq_abort]
  unfold reset
  cases s.preamble with
  | none => simp
  | some p => cases hrun : runPreamble s.limits p <;> simp [hrun]

theorem call_eq_abort {s : Session} {time value : Float} {channels : List Float} :
    (s.call time value channels).2 = .abort why ↔ s.Runs (Lost why) (.call time value channels) := by
  simp only [Runs, lost_iff]
  unfold call evaluate merge
  cases s.expression with
  | none => simp
  | some p =>
    simp only [Option.some.injEq, exists_eq_left']
    rcases execute s.limits (override p.functions s.preambleFunctions) p.body
      (sampleScope s.globals time value channels) with ⟨result, scope⟩
    cases why <;> rcases result with (_ | _ | _ | _ | _ | _) | _ <;> simp

/-- An answer is missing just if the statements that are run have no end of their own. -/
theorem reply_eq_abort {s : Session} {q : Query} : s.reply q = .abort why ↔ s.Runs (Lost why) q := by
  cases q with
  | loadGlobals source => exact map_eq_abort.trans loadGlobals_eq_abort
  | bind source =>
    refine map_eq_abort.trans ⟨fun h => ?_, False.elim⟩
    change (s.bind source).2 = _ at h
    unfold bind at h
    split at h <;> cases h
  | reset => exact map_eq_abort.trans reset_eq_abort
  | checkpoint => simp [reply, Runs]
  | restore => simp [reply, Runs]
  | call time value channels => exact map_eq_abort.trans call_eq_abort

/-- The preamble and the expression are scripts of `P`. -/
structure Scripts (P : Program → Prop) (s : Session) : Prop where
  preamble : ∀ p, s.preamble = some p → P p
  expression : ∀ p, s.expression = some p → P p

namespace Scripts

variable {P : Program → Prop} {s s' : Session}

theorem new (limits : Limits) : Scripts P (Session.new limits) :=
  ⟨fun _ h => by (cases h), fun _ h => by (cases h)⟩

theorem of_sameScript (h : s.Scripts P) (hs : SameScript s s') : s'.Scripts P :=
  ⟨fun p hp => h.preamble p (hs.preamble ▸ hp), fun p hp => h.expression p (hs.expression ▸ hp)⟩

/-- The scripts of a session are those that it has been asked to load and to bind. -/
theorem answering (h : s.Scripts P) {q : Query} (hq : ∀ source ∈ q.sources, ∀ (known : Known) (p : Program),
    Program.parse? s.limits source = some p → P (p.simplify known)) : (s.answering q).Scripts P := by
  cases q with
  | loadGlobals source =>
    change (s.loadGlobals source).1.Scripts P
    unfold loadGlobals
    split
    next => exact h
    next p hp =>
      simp only
      split
      next => exact h
      next => exact h
      next globals _ =>
        refine ⟨fun p' hp' => ?_, h.expression⟩
        cases hp'
        exact hq source List.mem_cons_self _ p hp
  | bind source =>
    change (s.bind source).1.Scripts P
    unfold bind
    split
    next => exact h
    next p hp =>
      refine ⟨h.preamble, fun p' hp' => ?_⟩
      cases hp'
      exact hq source List.mem_cons_self _ p hp
  | reset => exact h.of_sameScript s.sameScript_reset.1
  | checkpoint => exact h.of_sameScript ⟨rfl, rfl, rfl⟩
  | restore =>
    refine h.of_sameScript ?_
    change SameScript s s.restore
    unfold restore
    split <;> exact ⟨rfl, rfl, rfl⟩
  | call time value channels => exact h.of_sameScript (s.sameScript_call time value channels).1

theorem foldl_answering (h : s.Scripts P)
    (hP : ∀ (limits : Limits) (source : String) (known : Known) (p : Program),
      Program.parse? limits source = some p → P (p.simplify known)) (queries : List Query) :
    (queries.foldl Session.answering s).Scripts P := by
  induction queries generalizing s with
  | nil => exact h
  | cons q queries ih => exact ih (h.answering fun source _ => hP s.limits source)

end Scripts

/-- The preamble and the expression call only functions of `N`. -/
structure CallsOnly (N : String → Prop) (s : Session) : Prop where
  preamble : ∀ p, s.preamble = some p → p.CallsOnly N
  expression : ∀ p, s.expression = some p → p.CallsOnly N

namespace CallsOnly

variable {N : String → Prop} {s s' : Session}

theorem new (limits : Limits) : CallsOnly N (Session.new limits) :=
  ⟨fun _ h => by (cases h), fun _ h => by (cases h)⟩

theorem of_sameScript (h : s.CallsOnly N) (hs : SameScript s s') : s'.CallsOnly N :=
  ⟨fun p hp => h.preamble p (hs.preamble ▸ hp), fun p hp => h.expression p (hs.expression ▸ hp)⟩

theorem functions (h : s.CallsOnly N) : FunctionsCallOnly N s.preambleFunctions := by
  unfold preambleFunctions
  split
  next p hp => exact (h.preamble p hp).functions
  next => exact fun f hf => by cases hf

theorem override {news olds : List Function} (hn : FunctionsCallOnly N news) (ho : FunctionsCallOnly N olds) :
    FunctionsCallOnly N (Session.override news olds) :=
  List.forall_mem_append.mpr ⟨hn, fun f hf => ho f (List.mem_of_mem_filter hf)⟩

theorem symbols : ∀ s ∈ Token.symbols, s ≠ "rate_limit" := by decide

theorem of_parse? {limits : Limits} {source : String} {p : Program}
    (hsource : ¬ Mentions source "rate_limit") (h : Program.parse? limits source = some p) :
    p.CallsOnly (· ≠ "rate_limit") := by
  refine Program.callsOnly_of_parse? symbols ?_ h
  rintro _ hname rfl
  exact hsource hname

theorem not_breaks (h : s.CallsOnly (· ≠ "rate_limit")) {q : Query}
    (hq : ∀ source ∈ q.sources, ¬ Mentions source "rate_limit") : ¬ s.Breaks q := by
  cases q with
  | loadGlobals source =>
    rintro ⟨p, hp, hbreaks⟩
    have hcalls := Program.callsOnly_simplify [] (of_parse? (hq source List.mem_cons_self) hp)
    exact not_breaksOff hcalls.functions hcalls.body hbreaks
  | bind source => exact id
  | reset =>
    rintro ⟨p, hp, hbreaks⟩
    exact not_breaksOff (h.preamble p hp).functions (h.preamble p hp).body hbreaks
  | checkpoint => exact id
  | restore => exact id
  | call time value channels =>
    rintro ⟨p, hp, hbreaks⟩
    have hcalls := h.expression p hp
    exact not_breaksOff (override hcalls.functions h.functions) hcalls.body hbreaks

theorem answering (h : s.CallsOnly (· ≠ "rate_limit")) {q : Query}
    (hq : ∀ source ∈ q.sources, ¬ Mentions source "rate_limit") :
    (s.answering q).CallsOnly (· ≠ "rate_limit") := by
  have hscripts : s.Scripts (Program.CallsOnly (· ≠ "rate_limit")) := ⟨h.preamble, h.expression⟩
  obtain ⟨hpreamble, hexpression⟩ := hscripts.answering fun source hsource known _ hp =>
    Program.callsOnly_simplify known (of_parse? (hq source hsource) hp)
  exact ⟨hpreamble, hexpression⟩

end CallsOnly

end Session

end DerivedSignal
