import DerivedSignal.Proofs.EvaluatorProtocol
import DerivedSignal.Proofs.ScriptRuns
import DerivedSignal.Proofs.SessionState

namespace DerivedSignal

open Script

/-- The names of the variables that a call puts on top of the global ones. -/
def Template.sampleVariables : List String := [channelsVariable, valueVariable, timeVariable]

/-- Global variables with new values in their places. Constants keep their values, and so do variables that
a newer one or one of the sample hides. -/
structure UpdatedInPlace (before after : List Slot) : Prop where
  labels : after.map Slot.label = before.map Slot.label
  values : ∀ i g, before[i]? = some g →
    (g.constant = true ∨ g.name ∈ Template.sampleVariables ∨ ∃ newer ∈ before.take i, newer.name = g.name) →
    after[i]? = some g

namespace UpdatedInPlace

variable {before between after : List Slot}

theorem refl (l : List Slot) : UpdatedInPlace l l := ⟨rfl, fun _ _ h _ => h⟩

theorem trans (h : UpdatedInPlace before between) (h' : UpdatedInPlace between after) :
    UpdatedInPlace before after where
  labels := h'.labels.trans h.labels
  values i g hg hfixed := by
    refine h'.values i g (h.values i g hg hfixed) (hfixed.imp_right (Or.imp_right ?_))
    rintro ⟨newer, hmem, hname⟩
    have hlabel : newer.label ∈ (between.take i).map Slot.label := by
      rw [List.map_take, h.labels, ← List.map_take]
      exact List.mem_map_of_mem hmem
    obtain ⟨newer', hmem', hlabel⟩ := List.mem_map.mp hlabel
    exact ⟨newer', hmem', (congrArg Prod.fst hlabel).trans hname⟩

theorem length (h : UpdatedInPlace before after) : after.length = before.length := by
  simpa using congrArg List.length h.labels

end UpdatedInPlace

theorem map_label_sampleScope (globals : List Slot) (time value : Float) (channels : List Float) :
    (Session.sampleScope globals time value channels).map Slot.label =
      Template.sampleVariables.map (fun name => (name, false)) ++ globals.map Slot.label := rfl

/-- The global variables are what is left when the variables of the sample are taken away again. -/
theorem UpdatedInPlace.of_keeps {globals scope : List Slot} {time value : Float} {channels : List Float}
    (h : Keeps (Session.sampleScope globals time value channels)
      (oldest (Session.sampleScope globals time value channels).length scope)) :
    UpdatedInPlace globals (oldest globals.length scope) := by
  have hlength : (Session.sampleScope globals time value channels).length = 3 + globals.length := by
    simp only [Session.sampleScope, List.length_cons]
    omega
  have hscope : 3 + globals.length ≤ scope.length := by
    have hkept := h.length
    rw [hlength, oldest, List.length_drop] at hkept
    omega
  have hdrop : oldest globals.length scope = (oldest (3 + globals.length) scope).drop 3 := by
    rw [oldest, oldest, List.drop_drop]
    congr 1
    omega
  rw [hlength] at h
  rw [hdrop]
  refine ⟨(h.drop 3).labels, fun i g hg hfixed => ?_⟩
  have hplace : (Session.sampleScope globals time value channels)[3 + i]? = some g := by
    rw [← List.getElem?_drop, ← hg]
    rfl
  rw [List.getElem?_drop, h.values (3 + i) ⟨g.label, by simp [hplace], ?_⟩, hplace]
  refine hfixed.imp_right fun hhidden => ?_
  rw [map_label_sampleScope, List.take_append]
  rcases hhidden with hsample | ⟨newer, hmem, hname⟩
  · refine ⟨(g.name, false), List.mem_append_left _ ?_, rfl⟩
    rw [List.take_of_length_le (by simp [Template.sampleVariables])]
    exact List.mem_map_of_mem hsample
  · refine ⟨newer.label, List.mem_append_right _ ?_, hname⟩
    rw [← List.map_take]
    exact List.mem_map_of_mem (by simpa [Template.sampleVariables] using hmem)

namespace Session

theorem updatedInPlace_call (s : Session) (time value : Float) (channels : List Float) :
    UpdatedInPlace s.globals (s.call time value channels).1.globals := by
  unfold call evaluate merge
  cases he : s.expression with
  | none => exact .refl _
  | some p =>
    simp only
    split <;> exact .of_keeps execute_keeps

theorem globals_bind (s : Session) (source : String) : (Evaluator.bind s source).1.globals = s.globals := by
  change (s.bind source).1.globals = s.globals
  unfold bind
  split <;> rfl

/-- A session after what it is asked. -/
def answering (s : Session) : Query → Session
  | .loadGlobals source => (Evaluator.loadGlobals s source).1
  | .bind source => (Evaluator.bind s source).1
  | .reset => (Evaluator.reset s).1
  | .checkpoint => Evaluator.checkpoint s
  | .restore => Evaluator.restore s
  | .call time value channels => (Evaluator.call s time value channels).1

end Session

/-- What a session is asked puts other global variables in the place of the present ones. -/
def Query.ReplacesGlobals : Query → Prop
  | .loadGlobals _ | .reset | .restore => True
  | .bind _ | .checkpoint | .call _ _ _ => False

namespace Session

theorem updatedInPlace_answering (s : Session) {q : Query} (h : ¬ q.ReplacesGlobals) :
    UpdatedInPlace s.globals (s.answering q).globals := by
  cases q with
  | loadGlobals source => exact absurd trivial h
  | bind source =>
    rw [answering, globals_bind]
    exact .refl _
  | reset => exact absurd trivial h
  | checkpoint => exact .refl _
  | restore => exact absurd trivial h
  | call time value channels => exact s.updatedInPlace_call time value channels

theorem updatedInPlace_foldl (s : Session) {queries : List Query} (h : ∀ q ∈ queries, ¬ q.ReplacesGlobals) :
    UpdatedInPlace s.globals (queries.foldl answering s).globals := by
  induction queries generalizing s with
  | nil => exact .refl _
  | cons q rest ih =>
    obtain ⟨hq, hrest⟩ := List.forall_mem_cons.mp h
    exact (s.updatedInPlace_answering hq).trans (ih (s.answering q) hrest)

/-- However a call ends, the global variables are those that were there before it, in their order and under
their names; constants and hidden ones have their values, and what the call declared or gave to the variables
of its sample is gone. So it is along any run, until one loads a preamble, resets or restores: nothing else
changes how many there are. -/
theorem globals_updated_in_place (s : Session) :
    (∀ time value channels, UpdatedInPlace s.globals (s.call time value channels).1.globals ∧
      SameScript s (s.call time value channels).1 ∧ (s.call time value channels).1.saved = s.saved) ∧
    (∀ queries : List Query, (∀ q ∈ queries, ¬ q.ReplacesGlobals) →
      UpdatedInPlace s.globals (queries.foldl answering s).globals) ∧
    ∀ q : Query, (s.answering q).globals.length ≠ s.globals.length → q.ReplacesGlobals := by
  refine ⟨fun time value channels => ?_, fun queries h => s.updatedInPlace_foldl h, fun q hlength => ?_⟩
  · exact ⟨s.updatedInPlace_call time value channels, s.sameScript_call time value channels⟩
  · by_contra hq
    exact hlength (s.updatedInPlace_answering hq).length

/-- A call that changes a global variable, hides others in a block, and then fails within another block. -/
theorem globals_updated_in_place_raised :
    ∃ s : Session, s = [Query.loadGlobals "let n = 10; const K = 5; let time = 7;",
        .bind "n += K; \x7b let n = 3; value = 0.0; \x7d if n > 12 \x7b time = 1.0; let b = n; throw \"high\" \x7d n"].foldl
          answering (.new {}) ∧
      (s.call 0 1 [2]).2 = .failed (.script "Runtime error: high (line 1, position 72)") ∧
      s.globals.map (fun g => (g.name, g.value.text)) = [("time", "7"), ("K", "5"), ("n", "10")] ∧
      (s.call 0 1 [2]).1.globals.map (fun g => (g.name, g.value.text)) =
        [("time", "7"), ("K", "5"), ("n", "15")] ∧
      (∀ q ∈ [Query.call 0 1 [2], .checkpoint, .bind "n"], ¬ q.ReplacesGlobals) ∧
      UpdatedInPlace s.globals ([Query.call 0 1 [2], .checkpoint, .bind "n"].foldl answering s).globals := by
  have hqueries : ∀ q ∈ [Query.call 0 1 [2], .checkpoint, .bind "n"], ¬ q.ReplacesGlobals := by
    simp [Query.ReplacesGlobals]
  refine ⟨_, rfl, by decide +kernel, by decide +kernel, by decide +kernel, hqueries, ?_⟩
  exact (globals_updated_in_place _).2.1 _ hqueries

end Session

end DerivedSignal
