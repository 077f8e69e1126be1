import DerivedSignal.Proofs.ScratchRun
import DerivedSignal.Proofs.SessionAborts

namespace DerivedSignal

open Script

namespace Transform

variable {why : Breakdown}

section Passes

variable {σ : Type} [Evaluator σ]

/-- A pass over samples ends the whole program only in one of its calls. -/
theorem abort_of_evaluateAll {t : Transform σ} {channels : List Series} {start s : σ} {ps : List Point}
    (hs : Driven start s) (h : (t.evaluateAll channels s ps).2 = .abort why) :
    ∃ s' time value values, Driven start s' ∧ (Evaluator.call s' time value values).2 = .abort why := by
  induction ps generalizing s with
  | nil => cases h
  | cons p ps ih =>
    have hnext := Driven.call p.x p.y (Alignment.align channels p.x) hs
    rw [evaluateAll_cons] at h
    split at h
    next s' why' hcall => exact ⟨s, _, _, _, hs, by cases h; rw [hcall]⟩
    next => cases h
    next s' value hcall =>
      rw [hcall] at hnext
      split at h
      next => cases h
      next ys _ => exact ih hnext (Session.map_eq_abort.mp h)

theorem abort_of_evaluate {t : Transform σ} {r : Registry} {mark : Float} {start s : σ} (hs : Driven start s)
    (h : (t.evaluate r mark s).2 = .abort why) :
    ∃ s' time value values, Driven start s' ∧ (Evaluator.call s' time value values).2 = .abort why := by
  unfold evaluate at h
  split at h
  next => cases h
  next linked _ =>
    split at h
    next => cases h
    next channels _ => exact abort_of_evaluateAll hs (Session.map_eq_abort.mp h)

theorem finish_eq_abort {t : Transform σ} {r : Registry} {replace : Bool} {outcome : Attempt (Option Pass)} :
    (t.finish r replace outcome).2.2 = .abort why ↔ outcome = .abort why := by
  rcases outcome with _ | _ | (_ | _) <;> simp [finish]

theorem abort_of_update {t : Transform σ} {r : Registry} (h : (t.update r).2.2 = .abort why) :
    ∃ s time value values, Driven (Evaluator.checkpoint t.evaluator) s ∧
      (Evaluator.call s time value values).2 = .abort why :=
  abort_of_evaluate .refl (finish_eq_abort.mp h)

theorem abort_of_rebuild {t : Transform σ} {r : Registry} (h : (t.rebuild r).2.2 = .abort why) :
    ∃ s, Driven (Evaluator.checkpoint t.evaluator) s ∧ ((Evaluator.reset s).2 = .abort why ∨
      ∃ time value values, (Evaluator.call s time value values).2 = .abort why) := by
  have hdriven : Driven (Evaluator.checkpoint t.evaluator) (Evaluator.reset _).1 := Driven.refl.reset
  unfold rebuild at h
  split at h
  next =>
    split at h
    next s hreset =>
      rw [hreset] at hdriven
      obtain ⟨s', time, value, values, hs', hcall⟩ := abort_of_evaluate hdriven (finish_eq_abort.mp h)
      exact ⟨s', hs', .inr ⟨time, value, values, hcall⟩⟩
    next => cases finish_eq_abort.mp h
    next s why' hreset =>
      refine ⟨_, .refl, .inl ?_⟩
      cases finish_eq_abort.mp h
      rw [hreset]
  next => cases h

end Passes

/-- A compilation ends the whole program only at a step of its plan. -/
theorem abort_of_compile {d : Definition} {start : Session} (h : (compile d start).2 = .abort why) :
    ∃ asked q, asked ++ [q] <+: compilePlan d ∧ (asked.foldl Session.answering start).reply q = .abort why := by
  unfold compile at h
  split at h
  next => cases h
  next slotted hslotted =>
    let load : Query := .loadGlobals d.globals
    let bind : Query := .bind slotted.text
    let call : Query := .call 0 1 (slotted.channels.map fun _ => 1)
    have hplan : compilePlan d = [load, bind, call, .reset] := by rw [compilePlan, hslotted]
    rw [hplan]
    split at h
    next s why' hload =>
      cases h
      exact ⟨[], load, ⟨_, rfl⟩, by simp [load, Session.reply, hload, Attempt.map]⟩
    next => cases h
    next s₁ hload =>
      have h₁ : start.answering load = s₁ := by rw [Session.answering, hload]
      split at h
      next s why' hbind =>
        cases h
        exact ⟨[load], bind, ⟨_, rfl⟩, by simp [h₁, bind, Session.reply, hbind, Attempt.map]⟩
      next => cases h
      next s₂ hbind =>
        have h₂ : s₁.answering bind = s₂ := by rw [Session.answering, hbind]
        split at h
        next s why' hcall =>
          cases h
          refine ⟨[load, bind], call, ⟨_, rfl⟩, ?_⟩
          simp only [List.foldl_cons, List.foldl_nil, h₁, h₂, call, Session.reply, hcall, Attempt.map]
        next => cases h
        next s₃ value hcall =>
          have h₃ : s₂.answering call = s₃ := by rw [Session.answering, hcall]
          split at h
          next => cases h
          next =>
            split at h
            next s why' hreset =>
              cases h
              exact ⟨[load, bind, call], .reset, ⟨_, rfl⟩,
                by simp [h₁, h₂, h₃, Session.reply, hreset, Attempt.map]⟩
            next => cases h
            next => cases h

section Breaks

variable {t : Transform Session} {r : Registry}

theorem breaks_of_compile {d : Definition} {s : Session} (h : (compile d s).2 = .abort .panic) :
    ∃ asked q, asked ++ [q] <+: compilePlan d ∧ (asked.foldl Session.answering s).Breaks q := by
  obtain ⟨asked, q, hplan, hreply⟩ := abort_of_compile h
  exact ⟨asked, q, hplan, Session.reply_eq_abort.mp hreply⟩

theorem breaks_of_update (h : (t.update r).2.2 = .abort .panic) :
    ∃ s time value values, Driven (Evaluator.checkpoint t.evaluator) s ∧
      s.Breaks (.call time value values) := by
  obtain ⟨s, time, value, values, hs, hcall⟩ := abort_of_update h
  exact ⟨s, time, value, values, hs, Session.call_eq_abort.mp hcall⟩

theorem breaks_of_rebuild (h : (t.rebuild r).2.2 = .abort .panic) :
    ∃ s, Driven (Evaluator.checkpoint t.evaluator) s ∧
      (s.Breaks .reset ∨ ∃ time value values, s.Breaks (.call time value values)) := by
  obtain ⟨s, hs, habort⟩ := abort_of_rebuild h
  refine ⟨s, hs, habort.imp (fun hreset => ?_) ?_⟩
  · exact Session.reset_eq_abort.mp hreset
  · rintro ⟨time, value, values, hcall⟩
    exact ⟨time, value, values, Session.call_eq_abort.mp hcall⟩

end Breaks

/-- The states of a compiled signal between registrations, passes and calls on any registries. -/
inductive Live (d : Definition) (limits : Limits) : Transform Session → Prop
  | compiled {t} : (compile d (Session.new limits)).2 = .done t → Live d limits t
  | register {t} (r : Registry) : Live d limits t → Live d limits (t.register r).1
  | update {t} (r : Registry) : Live d limits t → Live d limits (t.update r).1
  | rebuild {t} (r : Registry) : Live d limits t → Live d limits (t.rebuild r).1
  | call {t} (time value : Float) (values : List Float) : Live d limits t →
      Live d limits { t with evaluator := (Evaluator.call t.evaluator time value values).1 }

theorem sameScript_rebuild (t : Transform Session) (r : Registry) :
    Session.SameScript t.evaluator (t.rebuild r).1.evaluator := by
  cases hl : r.find? t.definition.linked with
  | none =>
    rw [rebuild_of_absent hl]
    exact ⟨rfl, rfl, rfl⟩
  | some linked => exact sameScript_of_isPass (isPass_rebuild hl)

theorem not_breaks_of_driven {s s' : Session} (hs : s.CallsOnly (· ≠ "rate_limit"))
    (h : Driven (Evaluator.checkpoint s) s') {q : Query} (hq : q.sources = []) : ¬ s'.Breaks q := by
  have hscript := (Session.sameScript_of_driven h).1
  have hcalls := hs.of_sameScript ⟨hscript.limits, hscript.preamble, hscript.expression⟩
  exact hcalls.not_breaks (by simp [hq])

/-- A definition mentions no `rate_limit`. -/
structure NoRateLimit (d : Definition) : Prop where
  globals : ¬ Mentions d.globals "rate_limit"
  expression : ¬ Mentions d.expression "rate_limit"

namespace NoRateLimit

variable {d : Definition}

theorem of_compilePlan (h : NoRateLimit d) {q : Query} (hq : q ∈ compilePlan d) :
    ∀ source ∈ q.sources, ¬ Mentions source "rate_limit" := by
  unfold compilePlan at hq
  split at hq
  next => cases hq
  next slotted hslotted =>
    simp only [List.mem_cons, List.not_mem_nil, or_false] at hq
    rcases hq with rfl | rfl | rfl | rfl
    · simpa [Query.sources] using h.globals
    · simpa [Query.sources] using mt (Template.mentions_of_assignSlots hslotted) h.expression
    · simp [Query.sources]
    · simp [Query.sources]

theorem callsOnly_foldl (h : NoRateLimit d) {asked : List Query} (hasked : ∀ q ∈ asked, q ∈ compilePlan d)
    {s : Session} (hs : s.CallsOnly (· ≠ "rate_limit")) :
    (asked.foldl Session.answering s).CallsOnly (· ≠ "rate_limit") := by
  induction asked generalizing s with
  | nil => exact hs
  | cons q asked ih =>
    obtain ⟨hq, hasked⟩ := List.forall_mem_cons.mp hasked
    exact ih hasked (hs.answering (h.of_compilePlan hq))

theorem compile_ne_abort (h : NoRateLimit d) (limits : Limits) :
    (compile d (Session.new limits)).2 ≠ .abort .panic := by
  intro habort
  obtain ⟨asked, q, hplan, hbreaks⟩ := breaks_of_compile habort
  have hcalls := h.callsOnly_foldl (fun q' hq' => hplan.subset (List.mem_append_left _ hq'))
    (Session.CallsOnly.new limits)
  have hq := h.of_compilePlan (hplan.subset (List.mem_append_right asked List.mem_cons_self))
  exact hcalls.not_breaks hq hbreaks

theorem callsOnly_of_live (h : NoRateLimit d) {limits : Limits} {t : Transform Session}
    (ht : Live d limits t) : t.evaluator.CallsOnly (· ≠ "rate_limit") := by
  induction ht with
  | @compiled t hc =>
    have hcompiles := compiles_of_done (Prod.ext rfl hc)
    obtain ⟨loaded, bound, probed, value, hload, hbind, hcall, -, hreset⟩ := hcompiles.steps
    have hplan : compilePlan d = [.loadGlobals d.globals, .bind t.slotted.text,
        .call 0 1 (t.slotted.channels.map fun _ => 1), .reset] := by
      rw [compilePlan, hcompiles.slots]
    have hcalls := h.callsOnly_foldl (fun q hq => hq) (Session.CallsOnly.new limits)
    simpa only [hplan, List.foldl_cons, List.foldl_nil, Session.answering, hload, hbind, hcall, hreset] using
      hcalls
  | register r _ ih => exact ih
  | @update t r _ ih => exact ih.of_sameScript (sameScript_of_isPass (isPass_update t r))
  | @rebuild t r _ ih => exact ih.of_sameScript (sameScript_rebuild t r)
  | @call t time value values _ ih => exact ih.of_sameScript (t.evaluator.sameScript_call time value values).1

theorem ne_abort_of_live (h : NoRateLimit d) {limits : Limits} {t : Transform Session}
    (ht : Live d limits t) :
    (∀ r, (t.update r).2.2 ≠ .abort .panic ∧ (t.rebuild r).2.2 ≠ .abort .panic) ∧
      ∀ time value values, (Evaluator.call t.evaluator time value values).2 ≠ .abort .panic := by
  have hcalls := h.callsOnly_of_live ht
  refine ⟨fun r => ⟨fun habort => ?_, fun habort => ?_⟩, fun time value values habort => ?_⟩
  · obtain ⟨s, time, value, values, hs, hbreaks⟩ := breaks_of_update habort
    exact not_breaks_of_driven hcalls hs rfl hbreaks
  · obtain ⟨s, hs, hbreaks | ⟨time, value, values, hbreaks⟩⟩ := breaks_of_rebuild habort
    · exact not_breaks_of_driven hcalls hs rfl hbreaks
    · exact not_breaks_of_driven hcalls hs rfl hbreaks
  · exact hcalls.not_breaks (q := .call time value values) (by simp [Query.sources])
      (Session.call_eq_abort.mp habort)

end NoRateLimit

/-- The whole program ends only in a `rate_limit` whose previous value is a number, whose time is not at
most zero and whose greatest step is negative or NaN; every other operator and function gives a value or a
fault for whatever arguments, and so does every other step of a script. A compilation, an update or a rebuild
ends the program only where its evaluator does. What does not mention `rate_limit` never does, with whatever
limits and on whatever registries. -/
theorem aborts_only_in_rate_limit :
    (∀ name arguments, Builtin.call? name arguments = some .abort ↔
      name = "rate_limit" ∧ OutOfDomain arguments) ∧
    (∀ operator old value, Builtin.assign? operator old value ≠ some .abort) ∧
    (∀ (s : Session) (q : Query), s.reply q = .abort .panic ↔ s.Breaks q) ∧
    (∀ (d : Definition) (s : Session), (compile d s).2 = .abort .panic →
      ∃ asked q, asked ++ [q] <+: compilePlan d ∧ (asked.foldl Session.answering s).Breaks q) ∧
    (∀ (t : Transform Session) (r : Registry), (t.update r).2.2 = .abort .panic →
      ∃ s time value values, Driven (Evaluator.checkpoint t.evaluator) s ∧
        s.Breaks (.call time value values)) ∧
    (∀ (t : Transform Session) (r : Registry), (t.rebuild r).2.2 = .abort .panic →
      ∃ s, Driven (Evaluator.checkpoint t.evaluator) s ∧
        (s.Breaks .reset ∨ ∃ time value values, s.Breaks (.call time value values))) ∧
    ∀ d : Definition, NoRateLimit d → ∀ limits : Limits,
      (compile d (Session.new limits)).2 ≠ .abort .panic ∧
      ∀ t, Live d limits t →
        (∀ r, (t.update r).2.2 ≠ .abort .panic ∧ (t.rebuild r).2.2 ≠ .abort .panic) ∧
        ∀ time value values, (Evaluator.call t.evaluator time value values).2 ≠ .abort .panic := by
  refine ⟨fun _ _ => Builtin.call?_eq_abort, Builtin.assign?_ne_abort, fun _ _ => Session.reply_eq_abort, ?_⟩
  refine ⟨fun _ _ => breaks_of_compile, fun _ _ => breaks_of_update, fun _ _ => breaks_of_rebuild, ?_⟩
  exact fun d h limits => ⟨h.compile_ne_abort limits, fun t ht => h.ne_abort_of_live ht⟩

/-- A smoothed signal goes on over NaN and infinite samples. A definition with a negative greatest step ends
the program already when it is compiled. -/
theorem aborts_only_in_rate_limit_smoothed :
    ∃ (t : Transform Session) (r : Registry),
      let d : Definition := ⟨"f", "x", "let last = 0.0;", "last = smooth(value, last, 0.5) + $$a$$; last"⟩
      let d' : Definition := ⟨"g", "x", "", "rate_limit(value, 0.0, -1.0, 1)"⟩
      NoRateLimit d ∧ (compile d (Session.new {})).2 = .done t ∧ Live d {} t ∧
        r.find? "x" = some ⟨[⟨0, FloatMath.nan⟩, ⟨1, 1 / 0⟩], none⟩ ∧
        (t.update r).2.2 = .done 2 ∧ (t.rebuild r).2.2 ≠ .abort .panic ∧
      (compile d' (Session.new {})).2 = .abort .panic ∧
        Builtin.call? "rate_limit" [.float 1, .float 0, .float (-1), .int 1] = some .abort ∧
        ∃ asked q, asked ++ [q] <+: compilePlan d' ∧
          (asked.foldl Session.answering (Session.new {})).Breaks q := by
  let d : Definition := ⟨"f", "x", "let last = 0.0;", "last = smooth(value, last, 0.5) + $$a$$; last"⟩
  let d' : Definition := ⟨"g", "x", "", "rate_limit(value, 0.0, -1.0, 1)"⟩
  let r : Registry :=
    (NameMap.empty.insert "x" ⟨[⟨0, FloatMath.nan⟩, ⟨1, 1 / 0⟩], none⟩).insert "a" ⟨[⟨0, 1⟩], none⟩
  obtain ⟨hhost, -, -, hcompile, -, -, hsafe⟩ := aborts_only_in_rate_limit
  have hd : NoRateLimit d := ⟨by unfold Mentions; decide +kernel, by unfold Mentions; decide +kernel⟩
  obtain ⟨s, t, hc, hupdate⟩ :
      ∃ s t, compile d (Session.new {}) = (s, .done t) ∧ (t.update r).2.2 = .done 2 :=
    exists_compile_of_any (by decide +kernel)
  have hdone : (compile d (Session.new {})).2 = .done t := by rw [hc]
  have hbroken : (compile d' (Session.new {})).2.map (fun _ => ()) = .abort .panic := by decide +kernel
  have hbroken := Session.map_eq_abort.mp hbroken
  have hdomain : OutOfDomain [.float 1, .float 0, .float (-1), .int 1] :=
    ⟨1, 0, -1, FloatMath.ofInt 1, rfl, by decide +kernel, by decide +kernel, .inl (by decide +kernel)⟩
  have hlive : Live d {} t := .compiled hdone
  exact ⟨t, r, hd, hdone, hlive, rfl, hupdate, (((hsafe d hd {}).2 t hlive).1 r).2, hbroken,
    (hhost _ _).mpr ⟨rfl, hdomain⟩, hcompile d' _ hbroken⟩

end Transform

end DerivedSignal
