import DerivedSignal.Proofs.Compilation
import DerivedSignal.Proofs.Segmentation
import DerivedSignal.Proofs.SessionAborts
import DerivedSignal.Proofs.Termination

namespace DerivedSignal

open Script

namespace Transform

/-- The session in which a definition is evaluated first: the preamble has been run, and `text` is bound. Nothing
if one of them does not parse, or the preamble does not run to its end. -/
def trialSession? (limits : Limits) (d : Definition) (text : String) : Option Session :=
  match Program.parse? limits d.globals, Program.parse? limits text with
  | some p, some e =>
    match Session.runPreamble limits (p.simplify []) with
    | .done globals => some ⟨limits, globals, some (p.simplify []), some (e.simplify (Session.known globals)), none⟩
    | _ => none
  | _, _ => none

/-- What an expression gives at time zero, with one for the value and for all channels. -/
def trial (s : Session) (channels : List String) : Attempt Reading := (s.call 0 1 (channels.map fun _ => 1)).2

/-- Why a definition whose references are well formed does not compile. -/
inductive Flaw (limits : Limits) (d : Definition) (slotted : Template.Slotted) : Prop
  | preambleText (h : Program.parse? limits d.globals = none)
  | preambleRun {p e} (h : Program.parse? limits d.globals = some p)
      (hrun : Session.runPreamble limits (p.simplify []) = .failed e)
  | expressionText (h : Program.parse? limits slotted.text = none)
  | evaluation {s e} (h : trialSession? limits d slotted.text = some s)
      (htrial : trial s slotted.channels = .failed e)
  | kind {s typeName} (h : trialSession? limits d slotted.text = some s)
      (htrial : trial s slotted.channels = .done (.unsupported typeName))

/-- Neither the preamble nor the first evaluation runs statements of which `P` holds. -/
structure Avoids (P : Limits → List Function → List Stmt → List Slot → Prop) (limits : Limits) (d : Definition) :
    Prop where
  preamble : ¬ (Session.new limits).Runs P (.loadGlobals d.globals)
  trial : ∀ slotted s, Template.assignSlots d.expression d.linked = .ok slotted →
    trialSession? limits d slotted.text = some s → ¬ s.Runs P (.call 0 1 (slotted.channels.map fun _ => 1))

/-- Neither the preamble nor the first evaluation comes to a `rate_limit` without a step. -/
abbrev Survives (limits : Limits) (d : Definition) : Prop := Avoids BreaksOff limits d

/-- Neither the preamble nor the first evaluation goes on for ever. -/
abbrev Settles (limits : Limits) (d : Definition) : Prop := Avoids Endless limits d

theorem limits_of_trialSession? {limits : Limits} {d : Definition} {text : String} {s : Session}
    (h : trialSession? limits d text = some s) : s.limits = limits := by
  unfold trialSession? at h
  split at h
  next =>
    split at h <;> cases h
    rfl
  next => cases h

/-- Under a limit of operations nothing goes on for ever. -/
theorem settles_of_limit {limits : Limits} (h : limits.maxOperations ≠ 0) (d : Definition) : Settles limits d where
  preamble := fun ⟨_, _, hendless⟩ => execute_ne_exhausted h _ _ _ hendless
  trial := fun _ _ _ hs ⟨_, _, hendless⟩ =>
    execute_ne_exhausted ((limits_of_trialSession? hs).symm ▸ h) _ _ _ hendless

/-- Nothing has been processed or staged, and the variables are those that the preamble leaves. -/
structure Fresh (limits : Limits) (d : Definition) (t : Transform Session) : Prop where
  mark : t.mark = FloatMath.negInfinity
  staged : t.staged = []
  globals : ∃ p, Program.parse? limits d.globals = some p ∧
    Session.runPreamble limits (p.simplify []) = .done t.evaluator.globals

section Steps

variable {limits : Limits} {d : Definition} {slotted : Template.Slotted} {s : Session} {p e : Program}
  {globals : List Slot}

theorem error_of_runPreamble {error : Error} (h : Session.runPreamble limits p = .failed error) :
    ∃ m, error = .compile m := by
  unfold Session.runPreamble at h
  split at h <;> cases h
  exact ⟨_, rfl⟩

/-- A preamble that parses is loaded if it runs to its end. -/
theorem loadGlobals_new (hp : Program.parse? limits d.globals = some p) :
    Evaluator.loadGlobals (Session.new limits) d.globals =
      match Session.runPreamble limits (p.simplify []) with
      | .abort why => (Session.new limits, .abort why)
      | .failed e => (Session.new limits, .failed e)
      | .done globals => (⟨limits, globals, some (p.simplify []), none, none⟩, .done ()) := by
  change Session.loadGlobals (Session.new limits) d.globals = _
  cases hrun : Session.runPreamble limits (p.simplify []) <;>
    simp only [Session.loadGlobals, Session.new, hp, hrun]

theorem loadGlobals_of_run (hp : Program.parse? limits d.globals = some p)
    (hrun : Session.runPreamble limits (p.simplify []) = .done globals) :
    Evaluator.loadGlobals (Session.new limits) d.globals =
      (⟨limits, globals, some (p.simplify []), none, none⟩, .done ()) := by
  rw [loadGlobals_new hp, hrun]

theorem bind_of_parse (hp : Program.parse? s.limits slotted.text = some e) : Evaluator.bind s slotted.text =
    ({ s with expression := some (e.simplify (Session.known s.globals)) }, .done ()) := by
  change s.bind slotted.text = _
  simp only [Session.bind, hp]

theorem compile_of_preambleText (hslots : Template.assignSlots d.expression d.linked = .ok slotted)
    (hp : Program.parse? limits d.globals = none) :
    (compile d (Session.new limits)).2 = .failed (.compile "global variables: syntax error") := by
  have hload : Evaluator.loadGlobals (Session.new limits) d.globals =
      (Session.new limits, .failed (.compile "global variables: syntax error")) := by
    simp [Evaluator.loadGlobals, Session.loadGlobals, Session.new, hp]
  simp only [compile, hslots, hload]

theorem compile_of_preambleAbort (hslots : Template.assignSlots d.expression d.linked = .ok slotted)
    (hp : Program.parse? limits d.globals = some p) {why : Breakdown}
    (hrun : Session.runPreamble limits (p.simplify []) = .abort why) :
    (compile d (Session.new limits)).2 = .abort why := by
  simp only [compile, hslots, loadGlobals_new hp, hrun]

theorem trialSession?_of_preambleAbort {text : String} (hp : Program.parse? limits d.globals = some p)
    {why : Breakdown} (hrun : Session.runPreamble limits (p.simplify []) = .abort why) :
    trialSession? limits d text = none := by
  unfold trialSession?
  cases Program.parse? limits text with
  | none => rw [hp]
  | some e => simp only [hp, hrun]

theorem compile_of_preambleRun (hslots : Template.assignSlots d.expression d.linked = .ok slotted)
    (hp : Program.parse? limits d.globals = some p) {error : Error}
    (hrun : Session.runPreamble limits (p.simplify []) = .failed error) :
    (compile d (Session.new limits)).2 = .failed error := by
  simp only [compile, hslots, loadGlobals_new hp, hrun]

theorem compile_of_expressionText (hslots : Template.assignSlots d.expression d.linked = .ok slotted)
    (hp : Program.parse? limits d.globals = some p)
    (hrun : Session.runPreamble limits (p.simplify []) = .done globals)
    (he : Program.parse? limits slotted.text = none) :
    (compile d (Session.new limits)).2 = .failed (.compile "expression: syntax error") := by
  let loaded : Session := ⟨limits, globals, some (p.simplify []), none, none⟩
  have hbind : Evaluator.bind loaded slotted.text = (loaded, .failed (.compile "expression: syntax error")) := by
    simp [Evaluator.bind, Session.bind, he, loaded]
  simp only [compile, hslots, loadGlobals_of_run hp hrun, hbind, loaded]

/-- A preamble that has run once runs again, whatever a call has made of its variables. -/
theorem reset_call (hpreamble : s.preamble = some p) (hrun : Session.runPreamble s.limits p = .done globals)
    (time value : Float) (channels : List Float) :
    Evaluator.reset (s.call time value channels).1 =
      ({ (s.call time value channels).1 with globals }, .done ()) := by
  obtain ⟨hlimits, hsame, -⟩ := (s.sameScript_call time value channels).1
  change Session.reset _ = _
  simp only [Session.reset, hsame, hpreamble, hlimits, hrun]

/-- From the first evaluation on, a compilation ends as that does. -/
theorem compile_of_trial (hslots : Template.assignSlots d.expression d.linked = .ok slotted)
    (hs : trialSession? limits d slotted.text = some s) :
    (∀ why, trial s slotted.channels = .abort why → (compile d (Session.new limits)).2 = .abort why) ∧
    (∀ error, trial s slotted.channels = .failed error →
      (compile d (Session.new limits)).2 = .failed (trialError error)) ∧
    (∀ typeName, trial s slotted.channels = .done (.unsupported typeName) →
      ∃ m, (compile d (Session.new limits)).2 = .failed (.compile m)) ∧
    ∀ reading shape, trial s slotted.channels = .done reading → OutputShape.ofReading reading = .ok shape →
      ∃ t, (compile d (Session.new limits)).2 = .done t ∧ Fresh limits d t := by
  unfold trialSession? at hs
  split at hs
  next p e hp he =>
    split at hs
    next globals hrun =>
      cases hs
      let loaded : Session := ⟨limits, globals, some (p.simplify []), none, none⟩
      let s : Session := { loaded with expression := some (e.simplify (Session.known globals)) }
      have hload : Evaluator.loadGlobals (Session.new limits) d.globals = (loaded, .done ()) :=
        loadGlobals_of_run hp hrun
      have hbind : Evaluator.bind loaded slotted.text = (s, .done ()) := bind_of_parse (s := loaded) he
      have hcall : Evaluator.call s 0 1 (slotted.channels.map fun _ => 1) =
          ((s.call 0 1 (slotted.channels.map fun _ => 1)).1, trial s slotted.channels) := rfl
      refine ⟨fun why htrial => ?_, fun error htrial => ?_, fun typeName htrial => ?_, fun reading shape htrial hshape => ?_⟩
      · rw [htrial] at hcall
        simp only [compile, hslots, hload, hbind, hcall]
      · rw [htrial] at hcall
        simp only [compile, hslots, hload, hbind, hcall]
      · rw [htrial] at hcall
        simp only [compile, hslots, hload, hbind, hcall, OutputShape.ofReading]
        exact ⟨_, rfl⟩
      · rw [htrial] at hcall
        have hreset := reset_call (s := s) rfl hrun 0 1 (slotted.channels.map fun _ => 1)
        simp only [compile, hslots, hload, hbind, hcall, hshape, hreset]
        exact ⟨_, rfl, rfl, rfl, p, hp, hrun⟩
    next => cases hs
  next => cases hs

end Steps

section Outcomes

variable {limits : Limits} {d : Definition} {slotted : Template.Slotted}

/-- A compilation whose references are well formed has no outcome, or finds a flaw, or is done. -/
theorem outcome_of_slots (limits : Limits) (hslots : Template.assignSlots d.expression d.linked = .ok slotted) :
    (∃ why, ¬ Avoids (Lost why) limits d ∧ (compile d (Session.new limits)).2 = .abort why) ∨
    (Flaw limits d slotted ∧ ∃ m, (compile d (Session.new limits)).2 = .failed (.compile m)) ∨
    (¬ Flaw limits d slotted ∧ ∃ t, (compile d (Session.new limits)).2 = .done t ∧ Fresh limits d t) := by
  cases hp : Program.parse? limits d.globals with
  | none => exact .inr (.inl ⟨.preambleText hp, _, compile_of_preambleText hslots hp⟩)
  | some p =>
    cases hrun : Session.runPreamble limits (p.simplify []) with
    | abort why =>
      refine .inl ⟨why, fun h => h.preamble ⟨p, hp, ?_⟩, compile_of_preambleAbort hslots hp hrun⟩
      exact Session.runPreamble_eq_abort.mp hrun
    | failed error =>
      obtain ⟨m, rfl⟩ := error_of_runPreamble hrun
      exact .inr (.inl ⟨.preambleRun hp hrun, m, compile_of_preambleRun hslots hp hrun⟩)
    | done globals =>
      cases he : Program.parse? limits slotted.text with
      | none => exact .inr (.inl ⟨.expressionText he, _, compile_of_expressionText hslots hp hrun he⟩)
      | some e =>
        obtain ⟨s, hs⟩ : ∃ s, trialSession? limits d slotted.text = some s := by
          simp only [trialSession?, hp, he, hrun]
          exact ⟨_, rfl⟩
        obtain ⟨habort, hfailed, hkind, hdone⟩ := compile_of_trial hslots hs
        cases htrial : trial s slotted.channels with
        | abort why =>
          refine .inl ⟨why, fun h => ?_, habort why htrial⟩
          exact h.trial slotted s hslots hs (Session.call_eq_abort.mp htrial)
        | failed error =>
          obtain ⟨m, rfl⟩ := Session.error_of_call (s := s) (Prod.ext rfl htrial)
          exact .inr (.inl ⟨.evaluation hs htrial, _, hfailed _ htrial⟩)
        | done reading =>
          cases hshape : OutputShape.ofReading reading with
          | error error =>
            obtain ⟨typeName, rfl⟩ : ∃ typeName, reading = .unsupported typeName := by
              cases reading <;> cases hshape
              exact ⟨_, rfl⟩
            exact .inr (.inl ⟨.kind hs htrial, hkind _ htrial⟩)
          | ok shape =>
            refine .inr (.inr ⟨fun hflaw => ?_, hdone _ _ htrial hshape⟩)
            cases hflaw <;> simp_all [OutputShape.ofReading]

theorem malformed_of_slots {e : Error} (hslots : Template.assignSlots d.expression d.linked = .error e) :
    ∃ m, (compile d (Session.new limits)).2 = .failed (.malformed m) := by
  obtain ⟨m, rfl⟩ : ∃ m, e = .malformed m := by
    unfold Template.assignSlots at hslots
    split at hslots <;> cases hslots
    exact ⟨_, rfl⟩
  simp only [compile, hslots]
  exact ⟨_, rfl⟩

theorem malformed_iff_odd :
    (∃ m, (compile d (Session.new limits)).2 = .failed (.malformed m)) ↔
      Odd (Template.delimiters d.expression.toList) := by
  rw [← Nat.not_even_iff_odd, ← Template.scan_isSome_iff]
  constructor
  · rintro ⟨m, hm⟩ hsome
    obtain ⟨slotted, hslots⟩ : ∃ slotted, Template.assignSlots d.expression d.linked = .ok slotted := by
      obtain ⟨segments, hsegments⟩ := Option.isSome_iff_exists.mp hsome
      simp only [Template.assignSlots, hsegments]
      exact ⟨_, rfl⟩
    rcases outcome_of_slots limits hslots with ⟨why, -, h⟩ | ⟨-, m', h⟩ | ⟨-, t, h, -⟩ <;>
      rw [h] at hm <;> cases hm
  · intro hnone
    have hscan : Template.scan d.expression.toList = none := by simpa using hnone
    exact malformed_of_slots (e := .malformed "invalid use of $$ macro") (by simp only [Template.assignSlots, hscan])

/-- A compilation fails for the references, or fails for a flaw, or is done, if neither the preamble nor the first
evaluation ends the whole program or, where operations are not limited, goes on for ever. It fails for the references
just if the expression has an odd number of delimiters, whatever the preamble does. Once it is done nothing has been
processed or staged, and the variables are those of the preamble alone. -/
theorem compilation_classified (limits : Limits) (d : Definition) :
    ((∃ m, (compile d (Session.new limits)).2 = .failed (.malformed m)) ↔
      Odd (Template.delimiters d.expression.toList)) ∧
    (Survives limits d → (limits.maxOperations = 0 → Settles limits d) →
      ((∃ t, (compile d (Session.new limits)).2 = .done t) ∨
        (∃ m, (compile d (Session.new limits)).2 = .failed (.malformed m)) ∨
        ∃ m, (compile d (Session.new limits)).2 = .failed (.compile m)) ∧
      ∀ slotted, Template.assignSlots d.expression d.linked = .ok slotted →
        ((∃ m, (compile d (Session.new limits)).2 = .failed (.compile m)) ↔ Flaw limits d slotted)) ∧
    ∀ t, (compile d (Session.new limits)).2 = .done t → Fresh limits d t := by
  refine ⟨malformed_iff_odd, fun hsurvives hunlimited => ?_, fun t ht => ?_⟩
  · have hsettles : Settles limits d := by
      by_cases hlimit : limits.maxOperations = 0
      · exact hunlimited hlimit
      · exact settles_of_limit hlimit d
    have hnot : ∀ why, Avoids (Lost why) limits d := by
      rintro (_ | _)
      · exact hsurvives
      · exact hsettles
    refine ⟨?_, fun slotted hslots => ?_⟩
    · cases hslots : Template.assignSlots d.expression d.linked with
      | error e => exact .inr (.inl (malformed_of_slots hslots))
      | ok slotted =>
        rcases outcome_of_slots limits hslots with ⟨why, hlost, -⟩ | ⟨-, hfailed⟩ | ⟨-, t, ht, -⟩
        · exact absurd (hnot why) hlost
        · exact .inr (.inr hfailed)
        · exact .inl ⟨t, ht⟩
    · rcases outcome_of_slots limits hslots with ⟨why, hlost, -⟩ | ⟨hflaw, hfailed⟩ | ⟨hflaw, t, ht, -⟩
      · exact absurd (hnot why) hlost
      · exact iff_of_true hfailed hflaw
      · refine iff_of_false ?_ hflaw
        rintro ⟨m, hm⟩
        rw [ht] at hm
        cases hm
  · have hslots := (compiles_of_done (Prod.ext rfl ht)).slots
    rcases outcome_of_slots limits hslots with ⟨why, -, h⟩ | ⟨-, m, h⟩ | ⟨-, t', h, hfresh⟩ <;>
      rw [ht] at h <;> cases h
    exact hfresh

/-- A counter that the preamble starts and the expression raises compiles, and starts from the preamble again. -/
theorem compilation_classified_counter :
    Survives {} ⟨"f", "x", "let n = 0;", "n += 1; n + $$a$$"⟩ ∧
    ∃ t, (compile ⟨"f", "x", "let n = 0;", "n += 1; n + $$a$$"⟩ (Session.new {})).2 = .done t ∧
      Fresh {} ⟨"f", "x", "let n = 0;", "n += 1; n + $$a$$"⟩ t := by
  let d : Definition := ⟨"f", "x", "let n = 0;", "n += 1; n + $$a$$"⟩
  have hpreamble : (Session.loadGlobals (Session.new {}) d.globals).2 = .done () := by decide +kernel
  have htrial : ((Template.assignSlots d.expression d.linked).toOption.bind fun slotted =>
      (trialSession? {} d slotted.text).map fun s => trial s slotted.channels) = some (.done (.number 2)) := by
    decide +kernel
  have hsurvives : Survives {} d := by
    refine ⟨fun hbreaks => ?_, fun slotted s hslots hs hbreaks => ?_⟩
    · have : (Session.loadGlobals (Session.new {}) d.globals).2 = .abort .panic := Session.loadGlobals_eq_abort.mpr hbreaks
      rw [this] at hpreamble
      cases hpreamble
    · have : trial s slotted.channels = .abort .panic := Session.call_eq_abort.mpr hbreaks
      simp [hslots, hs, this, Except.toOption] at htrial
  obtain ⟨hodd, hclassified, hfresh⟩ := compilation_classified {} d
  obtain ⟨⟨t, ht⟩ | hmalformed | ⟨m, hm⟩, -⟩ := hclassified hsurvives (fun h => absurd h (by decide))
  · exact ⟨hsurvives, t, ht, hfresh t ht⟩
  · exact absurd (hodd.mp hmalformed) (by decide +kernel)
  · have hdone : (compile d (Session.new {})).2.map (fun _ => ()) = .done () := by decide +kernel
    rw [hm] at hdone
    cases hdone

section Endless

set_option maxRecDepth 100000

theorem parse_loop : Program.parse? { maxOperations := 0 } "loop \x7b \x7d" =
    some ⟨[.whileLoop none [] ⟨1, 1⟩], []⟩ := by
  with_unfolding_all rfl

theorem simplify_loop : (⟨[.whileLoop none [] ⟨1, 1⟩], []⟩ : Program).simplify [] =
    ⟨[.whileLoop none [] ⟨1, 1⟩], []⟩ := by
  with_unfolding_all rfl

theorem runPreamble_loop : Session.runPreamble { maxOperations := 0 }
    ((⟨[.whileLoop none [] ⟨1, 1⟩], []⟩ : Program).simplify []) = .abort .endless := by
  rw [simplify_loop]
  exact Session.runPreamble_eq_abort.mpr (execute_loop_exhausted rfl _ _ _)

end Endless

/-- A preamble that comes to a `rate_limit` without a step ends the whole program before there is a first
evaluation, and an empty loop in it goes on for ever where operations are not limited. -/
theorem preamble_ends_compilation :
    let d : Definition := ⟨"f", "x", "rate_limit(1.0, 0.0, -1.0, 1.0);", "value"⟩
    let loop : Definition := ⟨"f", "x", "loop \x7b \x7d", "value"⟩
    ((Template.assignSlots d.expression d.linked).toOption = some ⟨"value", []⟩ ∧
      trialSession? {} d "value" = none ∧
      (compile d (Session.new {})).2.map (fun _ => ()) = .abort .panic ∧
      ¬ ((∃ t, (compile d (Session.new {})).2 = .done t) ∨
        (∃ m, (compile d (Session.new {})).2 = .failed (.malformed m)) ∨
        ∃ m, (compile d (Session.new {})).2 = .failed (.compile m))) ∧
    (trialSession? { maxOperations := 0 } loop "value" = none ∧
      (compile loop (Session.new { maxOperations := 0 })).2 = .abort .endless) := by
  intro d loop
  refine ⟨?_, ?_, ?_⟩
  · have habort : (compile d (Session.new {})).2.map (fun _ => ()) = .abort .panic := by decide +kernel
    refine ⟨by decide +kernel, ?_, habort, ?_⟩
    · have hnone : (trialSession? {} d "value").isNone = true := by decide +kernel
      exact Option.isNone_iff_eq_none.mp hnone
    · rw [Session.map_eq_abort] at habort
      simp [habort]
  · exact trialSession?_of_preambleAbort parse_loop runPreamble_loop
  · cases hslots : Template.assignSlots loop.expression loop.linked with
    | error error =>
      have hsome : (Template.assignSlots loop.expression loop.linked).toOption.isSome = true := by decide +kernel
      rw [hslots] at hsome
      cases hsome
    | ok slotted => exact compile_of_preambleAbort hslots parse_loop runPreamble_loop

end Outcomes

end Transform

end DerivedSignal
