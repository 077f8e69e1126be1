import DerivedSignal.Proofs.FailedRequests

namespace DerivedSignal

open Script

/-- Asks an evaluator. -/
def Query.pose {σ : Type} [Evaluator σ] (s : σ) : Query → σ × Attempt (Option Reading)
  | .loadGlobals source => ((Evaluator.loadGlobals s source).1, (Evaluator.loadGlobals s source).2.map fun _ => none)
  | .bind source => ((Evaluator.bind s source).1, (Evaluator.bind s source).2.map fun _ => none)
  | .reset => ((Evaluator.reset s).1, (Evaluator.reset s).2.map fun _ => none)
  | .checkpoint => (Evaluator.checkpoint s, .done none)
  | .restore => (Evaluator.restore s, .done none)
  | .call time value channels =>
    ((Evaluator.call s time value channels).1, (Evaluator.call s time value channels).2.map some)

/-- A session that keeps what it needs for a call: the functions of its preamble, and its expression together with
them. -/
structure LinkedSession extends Session where
  functions : List Function
  callable : Option Program

namespace LinkedSession

def new (limits : Limits) : LinkedSession := ⟨Session.new limits, [], none⟩

/-- Puts the expression together with the functions. -/
def relink (s : LinkedSession) : LinkedSession :=
  { s with callable := s.expression.map (Session.merge s.functions) }

/-- Loads a preamble and runs it. What was bound is linked with its functions. -/
def loadGlobals (s : LinkedSession) (source : String) : LinkedSession × Attempt Unit :=
  match Program.parse? s.limits source with
  | none => (s, .failed (.compile "global variables: syntax error"))
  | some p =>
    let p := p.simplify []
    match Session.runPreamble s.limits p with
    | .abort why => (s, .abort why)
    | .failed e => (s, .failed e)
    | .done globals => ({ s with globals, functions := p.functions, preamble := some p }.relink, .done ())

/-- Binds an expression and links it with the functions that there are. -/
def bind (s : LinkedSession) (source : String) : LinkedSession × Attempt Unit :=
  match Program.parse? s.limits source with
  | none => (s, .failed (.compile "expression: syntax error"))
  | some p => ({ s with expression := some (p.simplify (Session.known s.globals)) }.relink, .done ())

/-- Does to the session what leaves its scripts alone. -/
def within {α : Type} (s : LinkedSession) (step : Session → Session × α) : LinkedSession × α :=
  ({ s with toSession := (step s.toSession).1 }, (step s.toSession).2)

/-- Evaluates what is linked. -/
def call (s : LinkedSession) (time value : Float) (channels : List Float) : LinkedSession × Attempt Reading :=
  match s.callable with
  | none => (s, .failed (.script "no expression bound"))
  | some p => s.within fun session => session.evaluate p time value channels

instance : Evaluator LinkedSession where
  loadGlobals := loadGlobals
  bind := bind
  reset := fun s => s.within Session.reset
  checkpoint := fun s => { s with toSession := s.checkpoint }
  restore := fun s => { s with toSession := s.restore }
  call := call

/-- What is kept is what the preamble and the expression give. -/
structure Linked (s : LinkedSession) : Prop where
  functions : s.functions = s.preambleFunctions
  callable : s.callable = s.expression.map (Session.merge s.preambleFunctions)

namespace Linked

variable {s : LinkedSession}

theorem new (limits : Limits) : (LinkedSession.new limits).Linked := ⟨rfl, rfl⟩

theorem relink (h : s.functions = s.preambleFunctions) : s.relink.Linked :=
  ⟨h, congrArg (fun functions => s.expression.map (Session.merge functions)) h⟩

/-- Nothing needs to be linked again where preamble and expression stay. -/
theorem of_sameScript (h : s.Linked) {session : Session} (hs : Session.SameScript s.toSession session) :
    ({ s with toSession := session } : LinkedSession).Linked := by
  have hfunctions : session.preambleFunctions = s.preambleFunctions := by
    simp only [Session.preambleFunctions, hs.preamble]
  refine ⟨h.functions.trans hfunctions.symm, h.callable.trans ?_⟩
  rw [hfunctions, hs.expression]

theorem loadGlobals (h : s.Linked) (source : String) :
    (s.loadGlobals source).1.Linked ∧ (s.loadGlobals source).1.toSession = (s.toSession.loadGlobals source).1 ∧
      (s.loadGlobals source).2 = (s.toSession.loadGlobals source).2 := by
  unfold LinkedSession.loadGlobals Session.loadGlobals
  cases Program.parse? s.limits source with
  | none => exact ⟨h, rfl, rfl⟩
  | some p =>
    dsimp only
    cases Session.runPreamble s.limits (p.simplify []) with
    | abort why => exact ⟨h, rfl, rfl⟩
    | failed e => exact ⟨h, rfl, rfl⟩
    | done globals => exact ⟨relink rfl, rfl, rfl⟩

theorem bind (h : s.Linked) (source : String) :
    (s.bind source).1.Linked ∧ (s.bind source).1.toSession = (s.toSession.bind source).1 ∧
      (s.bind source).2 = (s.toSession.bind source).2 := by
  unfold LinkedSession.bind Session.bind
  cases Program.parse? s.limits source with
  | none => exact ⟨h, rfl, rfl⟩
  | some p => exact ⟨relink h.functions, rfl, rfl⟩

theorem call (h : s.Linked) (time value : Float) (channels : List Float) :
    (s.call time value channels).1.Linked ∧
      (s.call time value channels).1.toSession = (s.toSession.call time value channels).1 ∧
      (s.call time value channels).2 = (s.toSession.call time value channels).2 := by
  have hscript := (s.sameScript_call time value channels).1
  unfold LinkedSession.call Session.call at *
  rw [h.callable]
  cases he : s.expression with
  | none => exact ⟨h, rfl, rfl⟩
  | some p =>
    rw [he] at hscript
    exact ⟨h.of_sameScript hscript, rfl, rfl⟩

/-- Asked anything, a linked session answers as the session in it does, and stays linked. -/
theorem pose (h : s.Linked) (q : Query) :
    (q.pose s).1.Linked ∧ (q.pose s).1.toSession = s.answering q ∧ (q.pose s).2 = s.reply q := by
  cases q with
  | loadGlobals source =>
    obtain ⟨hlinked, hsession, hreply⟩ := h.loadGlobals source
    exact ⟨hlinked, hsession, congrArg (Attempt.map fun _ => none) hreply⟩
  | bind source =>
    obtain ⟨hlinked, hsession, hreply⟩ := h.bind source
    exact ⟨hlinked, hsession, congrArg (Attempt.map fun _ => none) hreply⟩
  | reset => exact ⟨h.of_sameScript s.sameScript_reset.1, rfl, rfl⟩
  | checkpoint => exact ⟨h.of_sameScript ⟨rfl, rfl, rfl⟩, rfl, rfl⟩
  | restore =>
    refine ⟨h.of_sameScript ?_, rfl, rfl⟩
    unfold Session.restore
    split <;> exact ⟨rfl, rfl, rfl⟩
  | call time value channels =>
    obtain ⟨hlinked, hsession, hreply⟩ := h.call time value channels
    exact ⟨hlinked, hsession, congrArg (Attempt.map some) hreply⟩

/-- Whatever a session has been asked from the start, what it keeps is what its scripts give. -/
theorem foldl_pose (h : s.Linked) (queries : List Query) :
    (queries.foldl (fun s q => (q.pose s).1) s).Linked ∧
      (queries.foldl (fun s q => (q.pose s).1) s).toSession = queries.foldl Session.answering s.toSession := by
  induction queries generalizing s with
  | nil => exact ⟨h, rfl⟩
  | cons q queries ih =>
    obtain ⟨hlinked, hsession, -⟩ := h.pose q
    rw [List.foldl_cons, List.foldl_cons, ← hsession]
    exact ih hlinked

end Linked

/-- Linking whenever a preamble is loaded or an expression is bound comes to the same as putting them together for
every call: after the same queries both sessions give every query the same answer, and show the same of
themselves. -/
theorem answers_alike (limits : Limits) (queries : List Query) (q : Query) :
    let kept := queries.foldl (fun s q => (q.pose s).1) (LinkedSession.new limits)
    let session := queries.foldl Session.answering (Session.new limits)
    (q.pose kept).2 = session.reply q ∧ kept.globals = session.globals ∧
      kept.callable.isSome = session.status.bound := by
  obtain ⟨hlinked, hsession⟩ := (Linked.new limits).foldl_pose queries
  obtain ⟨-, -, hreply⟩ := hlinked.pose q
  refine ⟨?_, congrArg Session.globals hsession, ?_⟩
  · rw [hreply, hsession]
    rfl
  · rw [hlinked.callable, Option.isSome_map, hsession]
    rfl

end LinkedSession

end DerivedSignal
