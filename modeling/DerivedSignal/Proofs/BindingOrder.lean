import DerivedSignal.Proofs.ConstantFolding
import DerivedSignal.Proofs.FailedRequests

namespace DerivedSignal

namespace Session

open Script

section Steps

variable {s s' : Session} {q : Query} {source : String}

theorem answering_loadGlobals {p : Program} {globals : List Slot} (hp : Program.parse? s.limits source = some p)
    (hrun : runPreamble s.limits (p.simplify []) = .done globals) :
    s.answering (.loadGlobals source) = { s with globals, preamble := some (p.simplify []) } := by
  change (s.loadGlobals source).1 = _
  simp only [loadGlobals, hp, hrun]

theorem answering_bind {p : Program} (hp : Program.parse? s.limits source = some p) :
    s.answering (.bind source) = { s with expression := some (p.simplify (known s.globals)) } := by
  change (s.bind source).1 = _
  simp only [bind, hp]

/-- Whether a preamble loads depends on its text and on the limits alone. -/
theorem reply_loadGlobals_eq_done : s.reply (.loadGlobals source) = .done none ↔
    ∃ p globals, Program.parse? s.limits source = some p ∧
      runPreamble s.limits (p.simplify []) = .done globals := by
  change (s.loadGlobals source).2.map (fun _ => none) = _ ↔ _
  unfold loadGlobals
  cases hp : Program.parse? s.limits source with
  | none => simp [Attempt.map]
  | some p => cases hrun : runPreamble s.limits (p.simplify []) <;> simp [hrun, Attempt.map]

/-- Whether an expression is bound depends on its text and on the limits alone. -/
theorem reply_bind_eq_done : s.reply (.bind source) = .done none ↔
    ∃ p, Program.parse? s.limits source = some p := by
  change (s.bind source).2.map (fun _ => none) = _ ↔ _
  unfold bind
  cases hp : Program.parse? s.limits source <;> simp [Attempt.map]

theorem loadGlobals_core (s : Session) (source : String) :
    s.core.loadGlobals source = ((s.loadGlobals source).1.core, (s.loadGlobals source).2) := by
  simp only [loadGlobals, core]
  cases Program.parse? s.limits source with
  | none => rfl
  | some p => cases hrun : runPreamble s.limits (p.simplify []) <;> simp [hrun]

theorem bind_core (s : Session) (source : String) : s.core.bind source = ((s.bind source).1.core, (s.bind source).2) := by
  simp only [bind, core]
  cases Program.parse? s.limits source <;> rfl

theorem reset_core : s.core.reset = (s.reset.1.core, s.reset.2) := by
  simp only [reset, core]
  cases hp : s.preamble with
  | none => rfl
  | some p => cases hrun : runPreamble s.limits p <;> simp [hrun, hp]

/-- Unless it restores, a session does without its checkpoint. -/
theorem answer_core (hq : q ≠ .restore) :
    s.core.reply q = s.reply q ∧ (s.core.answering q).core = (s.answering q).core := by
  cases q with
  | loadGlobals source =>
    have h := s.loadGlobals_core source
    exact ⟨congrArg (fun r => r.2.map fun _ => (none : Option Reading)) h, congrArg (fun r => r.1.core) h⟩
  | bind source =>
    have h := s.bind_core source
    exact ⟨congrArg (fun r => r.2.map fun _ => (none : Option Reading)) h, congrArg (fun r => r.1.core) h⟩
  | reset =>
    have h := s.reset_core
    exact ⟨congrArg (fun r => r.2.map fun _ => (none : Option Reading)) h, congrArg (fun r => r.1.core) h⟩
  | checkpoint => exact ⟨rfl, rfl⟩
  | restore => exact absurd rfl hq
  | call time value channels =>
    have h := s.call_core time value channels
    exact ⟨congrArg (fun r => r.2.map some) h, congrArg (fun r => r.1.core) h⟩

theorem answer_congr_core (h : s.core = s'.core) (hq : q ≠ .restore) :
    s.reply q = s'.reply q ∧ (s.answering q).core = (s'.answering q).core := by
  obtain ⟨hreply, hcore⟩ := answer_core (s := s) hq
  obtain ⟨hreply', hcore'⟩ := answer_core (s := s') hq
  rw [h] at hreply hcore
  exact ⟨hreply.symm.trans hreply', hcore.symm.trans hcore'⟩

theorem status_congr_core (h : s.core = s'.core) : s.status = s'.status := by
  have hcore : s.core.status = s'.core.status := congrArg status h
  exact hcore

/-- Sessions that differ in their checkpoints only give the same answers and show the same. -/
theorem run_congr_core {queries : List Query} (h : s.core = s'.core) (hqueries : ∀ q ∈ queries, q ≠ .restore) :
    (s.run queries).2 = (s'.run queries).2 := by
  induction queries generalizing s s' with
  | nil => rfl
  | cons q rest ih =>
    obtain ⟨hq, hrest⟩ := List.forall_mem_cons.mp hqueries
    obtain ⟨hreply, hcore⟩ := answer_congr_core h hq
    have hevent : s.event q = s'.event q := by
      simp only [event, hreply, status_congr_core hcore]
    by_cases hgoes : (s.reply q).Returns
    · rw [run_of_returns hgoes, run_of_returns (hreply ▸ hgoes), hevent, ih hcore hrest]
    · obtain ⟨why, habort⟩ := Attempt.exists_abort_of_not_returns hgoes
      rw [run_of_abort habort, run_of_abort (hreply ▸ habort), hevent]

end Steps

/-- The session when the preamble is loaded and then the expression bound. -/
def boundAfter (s : Session) (preamble expression : String) : Session :=
  (s.answering (.loadGlobals preamble)).answering (.bind expression)

/-- The session when the expression is bound and then the preamble loaded. -/
def boundBefore (s : Session) (preamble expression : String) : Session :=
  (s.answering (.bind expression)).answering (.loadGlobals preamble)

/-- A preamble that is loaded under a bound expression gives this its variables and functions, but not its
constants: the expression keeps those that it found when it was bound. Bound anew it has them, and the session
then runs like a new one that loads the preamble and binds the expression. This is so from the start if the
same constants stand under the names that the expression looks up. -/
theorem binding_keeps_constants {s : Session} {preamble expression : String}
    (hload : s.reply (.loadGlobals preamble) = .done none) (hbind : s.reply (.bind expression) = .done none) :
    (s.answering (.loadGlobals preamble)).reply (.bind expression) = .done none ∧
    (s.answering (.bind expression)).reply (.loadGlobals preamble) = .done none ∧
    (s.boundBefore preamble expression).answering (.bind expression) = s.boundAfter preamble expression ∧
    (∀ queries : List Query, (∀ q ∈ queries, q ≠ .restore) →
      ((s.boundAfter preamble expression).run queries).2 =
        (((Session.new s.limits).boundAfter preamble expression).run queries).2) ∧
    ∃ p, Program.parse? s.limits expression = some p ∧
      (s.boundAfter preamble expression).expression =
        some (p.simplify (known (s.boundAfter preamble expression).globals)) ∧
      s.boundBefore preamble expression =
        { s.boundAfter preamble expression with expression := some (p.simplify (known s.globals)) } ∧
      (Known.AgreeOn p.names (known s.globals) (known (s.boundAfter preamble expression).globals) →
        s.boundBefore preamble expression = s.boundAfter preamble expression) := by
  obtain ⟨g, globals, hg, hrun⟩ := reply_loadGlobals_eq_done.mp hload
  obtain ⟨p, hp⟩ := reply_bind_eq_done.mp hbind
  have hafter (u : Session) (hu : u.limits = s.limits) : u.boundAfter preamble expression =
      ⟨s.limits, globals, some (g.simplify []), some (p.simplify (known globals)), u.saved⟩ := by
    rw [boundAfter, answering_loadGlobals (hu ▸ hg) (hu ▸ hrun), answering_bind (hu ▸ hp), hu]
  have hbefore : s.boundBefore preamble expression =
      ⟨s.limits, globals, some (g.simplify []), some (p.simplify (known s.globals)), s.saved⟩ := by
    rw [boundBefore, answering_bind hp]
    exact answering_loadGlobals hg hrun
  refine ⟨?_, ?_, ?_, fun queries hqueries => ?_, p, hp, ?_, ?_, fun h => ?_⟩
  · rw [answering_loadGlobals hg hrun]
    exact reply_bind_eq_done.mpr ⟨p, hp⟩
  · rw [answering_bind hp]
    exact reply_loadGlobals_eq_done.mpr ⟨g, globals, hg, hrun⟩
  · rw [hbefore, hafter s rfl]
    exact answering_bind hp
  · rw [hafter s rfl, hafter (.new s.limits) rfl]
    exact run_congr_core rfl hqueries
  · rw [hafter s rfl]
  · rw [hbefore, hafter s rfl]
  · rw [hafter s rfl] at h
    rw [hbefore, hafter s rfl, Program.simplify_congr h]

theorem agreeOn_of_variables {globals globals' : List Slot} (names : List String)
    (h : ∀ slot ∈ globals, slot.constant = false) (h' : ∀ slot ∈ globals', slot.constant = false) :
    Known.AgreeOn names (known globals) (known globals') := by
  have hnone {globals : List Slot} (h : ∀ slot ∈ globals, slot.constant = false) (n : String) :
      (known globals).constant? n = none := by
    refine Known.constant?_eq_none (fun entry hentry => ?_) n
    obtain ⟨slot, hslot, rfl⟩ := List.mem_map.mp hentry
    simp [h slot hslot]
  exact fun n _ => (hnone h n).trans (hnone h' n).symm

/-- Without constants a counter takes its new start and its new step, bound before or after they are loaded. -/
theorem binding_keeps_constants_counter :
    let s := (Session.new {}).answering (.loadGlobals "let n = 1; fn f() \x7b 1 \x7d")
    let preamble := "let n = 10; fn f() \x7b 2 \x7d"
    s.boundBefore preamble "n += f(); n" = s.boundAfter preamble "n += f(); n" ∧
    (s.boundAfter preamble "n += f(); n").reply (.call 0 1 []) = .done (some (.number 12)) := by
  intro s preamble
  have hload : s.reply (.loadGlobals preamble) = .done none := by decide +kernel
  have hbind : s.reply (.bind "n += f(); n") = .done none := by decide +kernel
  obtain ⟨-, -, -, -, p, -, -, -, hsame⟩ := binding_keeps_constants hload hbind
  refine ⟨hsame (agreeOn_of_variables p.names ?_ ?_), by decide +kernel⟩
  · decide +kernel
  · decide +kernel

/-- A constant that is loaded anew under a bound expression is not seen by it. -/
theorem order_of_binding_matters :
    let s := (Session.new {}).answering (.loadGlobals "const K = 5;")
    s.reply (.loadGlobals "const K = 2;") = .done none ∧ s.reply (.bind "K") = .done none ∧
    (s.boundAfter "const K = 2;" "K").reply (.call 0 1 []) = .done (some (.number 2)) ∧
    (s.boundBefore "const K = 2;" "K").reply (.call 0 1 []) = .done (some (.number 5)) := by
  decide +kernel

end Session

end DerivedSignal
