import DerivedSignal.Proofs.Custody
import DerivedSignal.Proofs.OutputNames

namespace DerivedSignal

open Transform

namespace Error

/-- An error that stands for itself, without the context that others put around it. -/
def IsRoot (e : Error) : Prop := e.root = e

theorem root_context {e : Error} (h : e.IsRoot) (attempt : String) : (context attempt e).root = e := h

end Error

namespace Session

open Script

variable {s s' : Session} {e : Error}

theorem isRoot_of_runPreamble {limits : Limits} {p : Program} (h : runPreamble limits p = .failed e) :
    e.IsRoot := by
  unfold runPreamble at h
  split at h <;> cases h
  rfl

theorem isRoot_of_loadGlobals {source : String}
    (h : Evaluator.loadGlobals s source = (s', .failed e)) : e.IsRoot := by
  change s.loadGlobals source = _ at h
  unfold loadGlobals at h
  split at h
  next =>
    cases h
    rfl
  next p _ =>
    simp only at h
    cases hr : runPreamble s.limits (p.simplify []) with
    | abort why => simp [hr] at h
    | failed e' =>
      rw [hr] at h
      cases h
      exact isRoot_of_runPreamble hr
    | done globals => simp [hr] at h

theorem isRoot_of_bind {source : String} (h : Evaluator.bind s source = (s', .failed e)) :
    e.IsRoot := by
  change s.bind source = _ at h
  unfold bind at h
  split at h
  next =>
    cases h
    rfl
  next => cases h

theorem isRoot_of_reset (h : Evaluator.reset s = (s', .failed e)) : e.IsRoot := by
  change s.reset = _ at h
  unfold reset at h
  split at h
  next => cases h
  next p _ =>
    cases hr : runPreamble s.limits p with
    | abort why => simp [hr] at h
    | failed e' =>
      rw [hr] at h
      cases h
      exact isRoot_of_runPreamble hr
    | done globals => simp [hr] at h

end Session

namespace Transform

variable {t t' : Transform Session} {r r' : Registry} {e : Error}

theorem isRoot_of_compile {d : Definition} {start s : Session}
    (h : compile d start = (s, .failed e)) : e.IsRoot := by
  unfold compile at h
  split at h
  next e' hslots =>
    cases h
    unfold Template.assignSlots at hslots
    split at hslots
    next => cases hslots
    next =>
      cases hslots
      rfl
  next slotted hslots =>
    split at h
    next => cases h
    next hload =>
      cases h
      exact Session.isRoot_of_loadGlobals hload
    next loaded hload =>
      split at h
      next => cases h
      next hbind =>
        cases h
        exact Session.isRoot_of_bind hbind
      next bound hbind =>
        split at h
        next => cases h
        next e' _ =>
          cases h
          unfold trialError
          split <;> rfl
        next probed value hcall =>
          split at h
          next hshape =>
            cases h
            cases value <;> cases hshape
            rfl
          next shape hshape =>
            split at h
            next => cases h
            next hreset =>
              cases h
              exact Session.isRoot_of_reset hreset
            next => cases h

theorem isRoot_of_resolve {names : List String} (h : Alignment.resolve r names = .error e) :
    e.IsRoot := by
  induction names with
  | nil => cases h
  | cons name names ih =>
    unfold Alignment.resolve at h
    split at h
    next =>
      cases h
      rfl
    next =>
      cases hr : Alignment.resolve r names with
      | ok channels => simp [hr, Except.map] at h
      | error e' =>
        rw [hr] at h
        cases h
        exact ih hr

theorem isRoot_of_evaluateAll {channels : List Series} {s s' : Session} {ps : List Point}
    (h : t.evaluateAll channels s ps = (s', .failed e)) : e.IsRoot := by
  rcases Session.error_of_evaluateAll h with ⟨message, rfl⟩ | ⟨x, actual, rfl⟩ <;> rfl

theorem isRoot_of_update {t t' : Transform Session} (h : t.update r = (t', r', .failed e)) :
    e.IsRoot := by
  cases hl : r.find? t.definition.linked with
  | none =>
    rw [update, evaluate_of_absent hl] at h
    cases h
  | some linked =>
    cases hc : Alignment.resolve r t.slotted.channels with
    | error e' =>
      rw [update, evaluate_of_unresolved hl hc] at h
      cases h
      exact isRoot_of_resolve hc
    | ok channels =>
      rw [update, evaluate_of_found hl hc] at h
      cases hr : (t.evaluateAll channels (Evaluator.checkpoint t.evaluator) (linked.after t.mark)).2 with
      | abort why => simp [hr, Attempt.map, finish] at h
      | failed e' =>
        simp only [hr, Attempt.map, finish, Prod.mk.injEq, Attempt.failed.injEq] at h
        exact h.2.2 ▸ isRoot_of_evaluateAll (Prod.ext rfl hr)
      | done rows => simp [hr, Attempt.map, finish] at h

theorem contains_of_startOver {n : Nat} (hn : t.outputs.Nodup) (h : t.startOver r = (t', r', .done n)) :
    ∀ q ∈ t.outputs, r'.contains q = true := by
  intro q hq
  obtain ⟨s, found, -, rfl⟩ := startOver_eq_done h
  rw [Registry.contains_eq_true_iff]
  cases found with
  | some p =>
    obtain ⟨i, hi⟩ := List.mem_iff_getElem?.mp hq
    exact ⟨_, find?_writeOutputs hn hi⟩
  | none =>
    simp only [find?_register, hq, true_and]
    split
    next => exact ⟨_, rfl⟩
    next hsome => exact Option.ne_none_iff_exists'.mp hsome

end Transform

open TransformSet in
/-- An addition that does not end the program ends in one of three ways. The definition does not compile:
set and registry are what they were. Its first pass fails: only the signal that stood under its name is gone,
with its outputs. Or it stands under its name, with all its outputs in the registry, and those outputs of
the signal that it replaces that are not its own are gone. The error is that of the step that has failed. -/
theorem add_changes_nothing_else {s s' : TransformSet} {r r' : Registry} {d : Definition}
    {outcome : Attempt (Transform Session)} (h : s.add r d = (s', r', outcome)) (hn : outcome.Returns) :
    (∃ u e, compile d (Session.new s.limits) = (u, .failed e) ∧
      outcome = .failed (.context ("Failed to compile '" ++ d.name ++ "'") e) ∧
      (Error.context ("Failed to compile '" ++ d.name ++ "'") e).root = e ∧ s' = s ∧ r' = r) ∨
    ∃ u fresh, compile d (Session.new s.limits) = (u, .done fresh) ∧ s'.limits = s.limits ∧
      ((∃ t v e, fresh.startOver (s.remove r d.name).2 = (t, v, .failed e) ∧
        outcome = .failed (.context ("Failed to evaluate '" ++ d.name ++ "'") e) ∧
        (Error.context ("Failed to evaluate '" ++ d.name ++ "'") e).root = e ∧
        (∀ n, s'.find? n = if d.name = n then none else s.find? n) ∧
        ∀ q, r'.find? q = if q ∈ s.outputsOf d.name then none else r.find? q) ∨
      ∃ t k, fresh.startOver (s.remove r d.name).2 = (t, r', .done k) ∧ outcome = .done t ∧
        t.definition = d ∧ (∀ n, s'.find? n = if d.name = n then some t else s.find? n) ∧
        (∀ q ∈ t.outputs, r'.contains q = true) ∧
        ∀ q, q ∉ t.outputs → r'.find? q = if q ∈ s.outputsOf d.name then none else r.find? q) := by
  obtain ⟨u, compiled, hc⟩ : ∃ u compiled, compile d (Session.new s.limits) = (u, compiled) := ⟨_, _, rfl⟩
  cases compiled with
  | abort why =>
    simp only [add, hc] at h
    cases h
    exact hn.elim
  | failed e =>
    simp only [add, hc] at h
    cases h
    exact .inl ⟨u, e, hc, rfl, Error.root_context (isRoot_of_compile hc) _, rfl, rfl⟩
  | done fresh =>
    have hcompiles := compiles_of_done hc
    have hcompiled : compiled? d (Session.new s.limits) = some fresh :=
      compiled?_eq_some_iff.mpr (congrArg Prod.snd hc)
    have hlimits : (s.remove r d.name).1.limits = s.limits := by rw [remove_transforms]
    refine .inr ⟨u, fresh, hc, ?_⟩
    rw [add_eq hcompiled, enroll_eq, hcompiles.definition] at h
    have hsame := sameSignal_startOver fresh (s.remove r d.name).2
    generalize hpass : fresh.startOver (s.remove r d.name).2 = result at h hsame
    obtain ⟨t, v, found⟩ := result
    cases found with
    | abort why =>
      cases h
      exact hn.elim
    | failed e =>
      cases h
      rw [registry_of_failed_startOver hcompiles.staged hpass]
      have hroot := isRoot_of_update hpass
      exact ⟨hlimits, .inl ⟨t, _, e, rfl, rfl, Error.root_context hroot _,
        remove_find? s r d.name, find?_remove s r d.name⟩⟩
    | done n =>
      cases h
      refine ⟨hlimits, .inr ⟨t, n, rfl, rfl, hsame.definition.trans hcompiles.definition, fun n => ?_,
        ?_, fun q hq => ?_⟩⟩
      · rw [find?, NameMap.find?_insert]
        split
        next => rfl
        next hne => exact (remove_find? s r d.name n).trans (if_neg hne)
      · rw [hsame.outputs]
        exact contains_of_startOver (outputs_nodup hcompiles) hpass
      · rw [hsame.outputs] at hq
        rw [startOver_frame hpass hq, find?_remove]

theorem Attempt.eq_failed_of_map {α β : Type} {f : α → β} {a : Attempt α} {e : Error}
    (h : a.map f = .failed e) : a = .failed e := by
  cases a with
  | abort why => cases h
  | failed e' =>
    cases h
    rfl
  | done v => cases h

/-- A signal with two outputs gives way to one whose first pass does not find its channel: both outputs go,
and the series that stands under the name of the new output stays. -/
theorem add_changes_nothing_else_missing_channel :
    ∃ (s s' : TransformSet) (r r' : Registry),
      let d : Definition := ⟨"f", "x", "", "$$ghost$$"⟩
      s.outputsOf "f" = ["f.0", "f.1"] ∧ r.contains "f.0" = true ∧ r.contains "f" = true ∧
      s.add r d = (s', r', .failed (.context "Failed to evaluate 'f'" (.missingChannel "ghost"))) ∧
      (∀ n, s'.find? n = if "f" = n then none else s.find? n) ∧
      ∀ q, r'.find? q = if q ∈ ["f.0", "f.1"] then none else r.find? q := by
  let r₀ : Registry := (NameMap.empty.insert "x" ⟨[⟨0, 1⟩], none⟩).insert "f" ⟨[⟨5, 5⟩], none⟩
  let pair : Definition := ⟨"f", "x", "", "[value, value]"⟩
  let d : Definition := ⟨"f", "x", "", "$$ghost$$"⟩
  obtain ⟨one, two, hone, htwo, houtputs, hpresent, hpresent', hfailed⟩ : ∃ one two,
      one = (TransformSet.empty {}).add r₀ pair ∧ two = one.1.add one.2.1 d ∧
      one.1.outputsOf "f" = ["f.0", "f.1"] ∧ one.2.1.contains "f.0" = true ∧
      one.2.1.contains "f" = true ∧
      two.2.2.map (·.outputs) =
        .failed (.context "Failed to evaluate 'f'" (.missingChannel "ghost")) :=
    ⟨_, _, rfl, rfl, by decide +kernel⟩
  have houtcome := Attempt.eq_failed_of_map hfailed
  have hadd : one.1.add one.2.1 d = (two.1, two.2.1,
      .failed (.context "Failed to evaluate 'f'" (.missingChannel "ghost"))) := by
    rw [← htwo, ← houtcome]
  refine ⟨one.1, two.1, one.2.1, two.2.1, houtputs, hpresent, hpresent', hadd, ?_⟩
  rcases add_changes_nothing_else hadd (by simp) with ⟨u, e, -, he, -⟩ |
    ⟨u, fresh, -, -, ⟨t, v, e, -, -, -, hset, hregistry⟩ | ⟨t, k, -, he, -⟩⟩
  · simp only [Attempt.failed.injEq, Error.context.injEq] at he
    exact absurd he.1 (by decide +kernel)
  · rw [houtputs] at hregistry
    exact ⟨hset, hregistry⟩
  · cases he

end DerivedSignal
