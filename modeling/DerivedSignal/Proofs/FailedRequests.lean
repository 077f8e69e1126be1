import DerivedSignal.Proofs.SessionAborts

namespace DerivedSignal

/-- What a session shows of itself: how many global variables there are, and whether an expression is bound. -/
structure Status where
  globals : ℕ
  bound : Bool
  deriving DecidableEq

/-- A turn, and what the session shows behind it. -/
structure Event where
  turn : Turn
  status : Status
  deriving DecidableEq

/-- A query is to give the session another preamble, another expression or fresh variables. -/
def Query.setsUp : Query → Bool
  | .loadGlobals _ | .bind _ | .reset => true
  | .checkpoint | .restore | .call _ _ _ => false

/-- What was to set the session up has failed. -/
def Turn.refused (t : Turn) : Bool :=
  match t.reply with
  | .failed _ => t.query.setsUp
  | _ => false

namespace Session

def status (s : Session) : Status := ⟨s.globals.length, s.expression.isSome⟩

def event (s : Session) (q : Query) : Event := ⟨⟨q, s.reply q⟩, (s.answering q).status⟩

/-- The session behind some queries, and what has happened on the way. Nothing follows a turn without an
outcome. -/
def run (s : Session) : List Query → Session × List Event
  | [] => (s, [])
  | q :: rest =>
    match s.reply q with
    | .abort _ => (s.answering q, [s.event q])
    | .failed _ | .done _ => (((s.answering q).run rest).1, s.event q :: ((s.answering q).run rest).2)

section Steps

variable {s : Session} {q : Query}

theorem run_of_abort {why : Breakdown} (h : s.reply q = .abort why) (rest : List Query) :
    s.run (q :: rest) = (s.answering q, [s.event q]) := by
  rw [run, h]

theorem run_of_returns (h : (s.reply q).Returns) (rest : List Query) :
    s.run (q :: rest) = (((s.answering q).run rest).1, s.event q :: ((s.answering q).run rest).2) := by
  rw [run]
  cases hreply : s.reply q with
  | abort why => exact absurd (hreply ▸ h) (Attempt.not_returns_abort why)
  | failed e => rfl
  | done v => rfl

theorem failed_of_refused (h : (s.event q).turn.refused = true) :
    q.setsUp = true ∧ ∃ e, s.reply q = .failed e := by
  unfold Turn.refused at h
  split at h
  next e he => exact ⟨h, e, he⟩
  next => cases h

theorem failed_of_map {α β : Type} {f : α → β} {a : Attempt α} {e : Error} (h : a.map f = .failed e) :
    a = .failed e := by
  cases a <;> cases h
  rfl

/-- A preamble that does not parse, or fails after some of its statements, is dropped with all that it has
made. -/
theorem loadGlobals_of_failed {source : String} {e : Error} (h : (s.loadGlobals source).2 = .failed e) :
    (s.loadGlobals source).1 = s := by
  unfold loadGlobals at h ⊢
  cases hp : Script.Program.parse? s.limits source with
  | none => rfl
  | some p =>
    simp only [hp] at h ⊢
    cases hrun : runPreamble s.limits (p.simplify []) with
    | abort why => rfl
    | failed e' => rfl
    | done globals =>
      rw [hrun] at h
      cases h

theorem bind_of_failed {source : String} {e : Error} (h : (s.bind source).2 = .failed e) :
    (s.bind source).1 = s := by
  unfold bind at h ⊢
  cases hp : Script.Program.parse? s.limits source with
  | none => rfl
  | some p =>
    rw [hp] at h
    cases h

theorem reset_of_failed {e : Error} (h : s.reset.2 = .failed e) : s.reset.1 = s := by
  unfold reset at h ⊢
  cases hp : s.preamble with
  | none =>
    rw [hp] at h
    cases h
  | some p =>
    simp only [hp] at h ⊢
    cases hrun : runPreamble s.limits p with
    | abort why => rfl
    | failed e' => rfl
    | done globals =>
      rw [hrun] at h
      cases h

/-- What is refused leaves the session as it is. -/
theorem answering_of_refused (h : (s.event q).turn.refused = true) : s.answering q = s := by
  obtain ⟨hsetsUp, e, he⟩ := failed_of_refused h
  cases q with
  | loadGlobals source => exact loadGlobals_of_failed (failed_of_map he)
  | bind source => exact bind_of_failed (failed_of_map he)
  | reset => exact reset_of_failed (failed_of_map he)
  | checkpoint => cases hsetsUp
  | restore => cases hsetsUp
  | call time value channels => cases hsetsUp

end Steps

/-- What has happened but for what was refused. -/
def accepted (events : List Event) : List Event := events.filter fun e => !e.turn.refused

/-- A run from which everything refused is deleted gives the other answers, shows the same of the session behind
each of them, and ends in the same session. -/
theorem refused_leaves_no_trace (s : Session) (queries : List Query) :
    s.run ((accepted (s.run queries).2).map (·.turn.query)) =
      ((s.run queries).1, accepted (s.run queries).2) := by
  induction queries generalizing s with
  | nil => rfl
  | cons q rest ih =>
    by_cases hrefused : (s.event q).turn.refused = true
    · obtain ⟨-, e, he⟩ := failed_of_refused hrefused
      have hgoes : (s.reply q).Returns := by simp [he]
      have hdropped (events : List Event) : accepted (s.event q :: events) = accepted events :=
        List.filter_cons_of_neg (by simp [hrefused])
      rw [run_of_returns hgoes, answering_of_refused hrefused]
      simp only [hdropped, ih s]
    · have hkept (events : List Event) : accepted (s.event q :: events) = s.event q :: accepted events :=
        List.filter_cons_of_pos (by simp [hrefused])
      have hquery : (s.event q).turn.query = q := rfl
      by_cases hgoes : (s.reply q).Returns
      · simp only [run_of_returns hgoes, hkept, List.map_cons, hquery, ih]
      · obtain ⟨why, habort⟩ := Attempt.exists_abort_of_not_returns hgoes
        simp only [run_of_abort habort, hkept, List.map_cons, hquery]
        rfl

/-- A preamble that fails behind its function and its variable, and an expression that does not parse. -/
example :
    let queries : List Query := [.loadGlobals "let n = 1; fn f() \x7b 2 \x7d", .bind "n += f(); n", .call 0 1 [],
      .loadGlobals "fn f() \x7b 3 \x7d let n = 5; let m = n + k;", .bind "n +", .reset, .call 0 1 []]
    ((Session.new {}).run queries).2.map (fun e => (e.turn.refused, e.status)) =
        [(false, ⟨1, false⟩), (false, ⟨1, true⟩), (false, ⟨1, true⟩), (true, ⟨1, true⟩), (true, ⟨1, true⟩),
          (false, ⟨1, true⟩), (false, ⟨1, true⟩)] ∧
      ((Session.new {}).run queries).2.getLast?.map (·.turn.reply) = some (.done (some (.number 3))) := by
  decide +kernel

end Session

end DerivedSignal
