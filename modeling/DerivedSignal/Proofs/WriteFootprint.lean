import DerivedSignal.Proofs.IdlePasses
import DerivedSignal.Proofs.OutputNames
import DerivedSignal.Proofs.SeriesOrder
import DerivedSignal.Proofs.Timestamps

namespace DerivedSignal

open Transform

namespace Series

variable {p q : Point} {ps qs : List Point}

theorem mem_of_mem_evict {bound : Option Float} (h : p ∈ evict bound ps) : p ∈ ps := by
  unfold evict at h
  split at h
  next => exact (List.dropWhile_sublist _).subset h
  next => exact h

theorem mem_of_mem_place (h : q ∈ place p ps) : q = p ∨ q ∈ ps := by
  unfold place at h
  split at h
  next =>
    split at h
    next => exact List.eq_or_mem_of_mem_insertIdx h
    next => simpa [or_comm] using h
  next => exact .inl (List.mem_singleton.mp h)

theorem mem_of_mem_pushAll {s : Series} (h : p ∈ (s.pushAll ps).points) : p ∈ s.points ∨ p ∈ ps := by
  induction ps generalizing s with
  | nil => exact .inl h
  | cons q ps ih =>
    rcases ih (show p ∈ ((s.push q).pushAll ps).points from h) with h | h
    · rcases mem_of_mem_place (mem_of_mem_evict h) with rfl | h
      · exact .inr List.mem_cons_self
      · exact .inl h
    · exact .inr (List.mem_cons_of_mem q h)

theorem mem_of_mem_after {s : Series} {x : Float} (h : p ∈ s.after x) : p ∈ s.points := List.mem_of_mem_drop h

end Series

namespace Transform

theorem mem_of_mem_writeOutput {replace : Bool} {bound : Option Float} {ps : List Point} {s : Series}
    {p : Point} (h : p ∈ (writeOutput replace bound ps s).points) :
    replace = false ∧ p ∈ s.points ∨ p ∈ ps := by
  cases replace with
  | true =>
    rw [writeOutput_replacing] at h
    exact (Series.mem_of_mem_pushAll h).imp_left fun h => by cases h
  | false => exact (Series.mem_of_mem_pushAll h).imp_left fun h => ⟨rfl, Series.mem_of_mem_evict h⟩

theorem bound_pushAll (s : Series) (ps : List Point) : (s.pushAll ps).bound = s.bound := by
  induction ps generalizing s with
  | nil => rfl
  | cons p ps ih => exact ih (s.push p)

theorem bound_writeOutput (replace : Bool) (bound : Option Float) (ps : List Point) (s : Series) :
    (writeOutput replace bound ps s).bound = bound :=
  bound_pushAll _ ps

variable {σ : Type} [Evaluator σ] {t t' : Transform σ} {r r' : Registry}

/-- A pass over a linked series that succeeds writes a row for each of the samples it evaluates. -/
structure Committed (t : Transform σ) (r : Registry) (linked : Series) (t' : Transform σ)
    (r' : Registry) (replace : Bool) (rows : List (Float × List Float)) (more : List Point) : Prop where
  signal : SameSignal t t'
  staged : t'.staged = []
  replaces : t'.replaces = false
  registry : r' = writeOutputs replace ⟨rows, linked.bound⟩ 0 t.outputs r
  appends : replace = false → t.replaces = false
  times : rows.map (·.1) = times more
  widths : ∀ row ∈ rows, row.2.length = t.outputs.length
  samples : ∀ p ∈ more, p ∈ linked.points

theorem committed_of_done {linked : Series} {n : Nat}
    (hl : r.find? t.definition.linked = some linked)
    (h : t.update r = (t', r', .done n) ∨ t.rebuild r = (t', r', .done n)) :
    ∃ replace rows more, Committed t r linked t' r' replace rows more := by
  rcases h with h | h
  · obtain ⟨channels, s, rows, hc, hrows⟩ := evaluateAll_of_update hl h
    have hupdate := update_of_evaluateAll hl hc hrows
    rw [h] at hupdate
    cases hupdate
    obtain ⟨hx, hlen⟩ := rows_of_evaluateAll hrows
    exact ⟨t.replaces, rows, _, ⟨rfl, rfl, rfl⟩, rfl, rfl, rfl, id, hx,
      fun row hrow => (hlen row hrow).trans t.length_outputs.symm, fun p => Series.mem_of_mem_after⟩
  · obtain ⟨channels, s, s', rows, hrows, hfinish⟩ := finish_of_rebuild hl h
    rw [finish_done] at hfinish
    cases hfinish
    obtain ⟨hx, hlen⟩ := rows_of_evaluateAll hrows
    exact ⟨true, rows, _, ⟨rfl, rfl, rfl⟩, rfl, rfl, rfl, nofun, hx,
      fun row hrow => (hlen row hrow).trans t.length_outputs.symm, fun p => Series.mem_of_mem_after⟩

theorem find?_of_operation (hstaged : ∀ q ∈ t.staged, q ∈ t.outputs) (r : Registry) {q : String}
    (hq : q ∉ t.outputs) :
    (t.register r).2.find? q = r.find? q ∧ (t.update r).2.1.find? q = r.find? q ∧
      (t.rebuild r).2.1.find? q = r.find? q ∧ (t.remove r).find? q = r.find? q := by
  have hq' : q ∉ t.staged := fun hm => hq (hstaged q hm)
  refine ⟨?_, find?_of_isPass (isPass_update t r) hq hq', ?_, ?_⟩
  · rw [find?_register, if_neg fun hm => hq hm.1]
  · cases hl : r.find? t.definition.linked with
    | none => rw [rebuild_of_absent hl]
    | some linked => exact find?_of_isPass (isPass_rebuild hl) hq hq'
  · exact (Registry.find?_eraseAll t.outputs r q).trans (if_neg hq)

end Transform

theorem Lifecycle.staged_outputs {σ : Type} [Evaluator σ] {d : Definition} {start : σ}
    {outside : Registry → Registry → Prop} {t : Transform σ} {r : Registry} {created : List String}
    (h : Lifecycle d start outside t r created) : ∀ q ∈ t.staged, q ∈ t.outputs := by
  induction h with
  | compiled r hc => simp [(compiles_of_done hc).staged]
  | elsewhere _ _ ih => exact ih
  | @register t r created _ ih => exact staged_register_outputs ih r
  | update _ hu hn _ => simp [staged_update hu hn]
  | rebuild _ hu hn _ => simp [staged_rebuild hu hn]

/-- The runs of a signal whose outputs are left alone by others, while all other series change. `held` are
the linked series over which passes have succeeded. -/
inductive SoleWriter (d : Definition) (start : Session) :
    Transform Session → Registry → List Series → Prop
  | compiled {s t} (r : Registry) : compile d start = (s, .done t) → SoleWriter d start t r []
  | elsewhere {t r held} (r' : Registry) : SoleWriter d start t r held →
      (∀ q ∈ t.outputs, r'.find? q = r.find? q) → SoleWriter d start t r' held
  | register {t r held} : SoleWriter d start t r held →
      SoleWriter d start (t.register r).1 (t.register r).2 held
  | committed {t r held linked t' r' n} : SoleWriter d start t r held →
      r.find? d.linked = some linked →
      (t.update r = (t', r', .done n) ∨ t.rebuild r = (t', r', .done n)) →
      SoleWriter d start t' r' (held ++ [linked])
  | idle {t r held t' r' outcome} : SoleWriter d start t r held → r.find? d.linked = none →
      (t.update r = (t', r', outcome) ∨ t.rebuild r = (t', r', outcome)) →
      SoleWriter d start t' r' held
  | failed {t r held t' r' e} : SoleWriter d start t r held →
      (t.update r = (t', r', .failed e) ∨ t.rebuild r = (t', r', .failed e)) →
      SoleWriter d start t' r' held

/-- The outputs are in step with a series whose timestamps all come from some others. -/
def HoldsTimesOf (names : List String) (held : List Series) (bound : Option Float) (r : Registry) : Prop :=
  ∃ s₀, HoldsTimes names s₀ r ∧ s₀.bound = bound ∧
    ∀ x ∈ times s₀.points, ∃ s ∈ held, x ∈ times s.points

/-- After a pass that has succeeded, and until the signal is registered again, its outputs have the same
timestamps, all of them from the linked series at some such pass. -/
structure Synchronous (d : Definition) (t : Transform Session) (r : Registry) (held : List Series) : Prop where
  definition : t.definition = d
  distinct : t.outputs.Nodup
  staged : ∀ q ∈ t.staged, q ∈ t.outputs
  appending : t.replaces = false → t.staged = [] ∧ ∃ bound, HoldsTimesOf t.outputs held bound r

namespace Synchronous

variable {d : Definition} {start : Session} {t t' : Transform Session} {r r' : Registry}
  {held : List Series}

theorem of_compile {s : Session} (hc : compile d start = (s, .done t)) (r : Registry) :
    Synchronous d t r [] := by
  have hcompiles := compiles_of_done hc
  exact
    { definition := hcompiles.definition
      distinct := outputs_nodup hcompiles
      staged := by simp [hcompiles.staged]
      appending := fun hr => by rw [hcompiles.replaces] at hr; cases hr }

theorem elsewhere (h : Synchronous d t r held) (hout : ∀ q ∈ t.outputs, r'.find? q = r.find? q) :
    Synchronous d t r' held := by
  refine { h with appending := fun hr => ?_ }
  obtain ⟨hstaged, bound, s₀, hholds, hbound, htimes⟩ := h.appending hr
  exact ⟨hstaged, bound, s₀, hholds.congr hout, hbound, htimes⟩

theorem register (h : Synchronous d t r held) :
    Synchronous d (t.register r).1 (t.register r).2 held :=
  ⟨h.definition, h.distinct, staged_register_outputs h.staged r, fun hr => by cases hr⟩

theorem unwritten (h : Synchronous d t r held) (hsame : SameSignal t t') (hstaged : t'.staged = [])
    (hreplaces : t'.replaces = t.replaces) (hr : t.staged = [] → r' = r) :
    Synchronous d t' r' held := by
  refine ⟨hsame.definition.trans h.definition, hsame.outputs ▸ h.distinct, by simp [hstaged],
    fun hfalse => ?_⟩
  obtain ⟨hnone, hholds⟩ := h.appending (hreplaces ▸ hfalse)
  rw [hr hnone, hsame.outputs]
  exact ⟨hstaged, hholds⟩

theorem idle (h : Synchronous d t r held) {outcome : Attempt Nat} (hl : r.find? d.linked = none)
    (hpass : t.update r = (t', r', outcome) ∨ t.rebuild r = (t', r', outcome)) :
    Synchronous d t' r' held := by
  rw [← h.definition] at hl
  rw [update_of_absent hl, rebuild_of_absent hl] at hpass
  rcases hpass with hpass | hpass <;> cases hpass <;>
    exact h.unwritten ⟨rfl, rfl, rfl⟩ rfl rfl fun _ => rfl

theorem failed (h : Synchronous d t r held) {e : Error}
    (hpass : t.update r = (t', r', .failed e) ∨ t.rebuild r = (t', r', .failed e)) :
    Synchronous d t' r' held := by
  obtain ⟨s, -, rfl, rfl⟩ := of_failed_isPass (isPass_of_failed hpass)
  refine h.unwritten ⟨rfl, rfl, rfl⟩ rfl rfl fun hnone => ?_
  rw [hnone, List.foldl_nil]

theorem written (h : Synchronous d t r held) {linked : Series} {replace : Bool}
    {rows : List (Float × List Float)} {more : List Point}
    (hc : Committed t r linked t' r' replace rows more) :
    HoldsTimesOf t.outputs (held ++ [linked]) linked.bound r' := by
  -- A pass that replaces the outputs does not ask what they held before.
  obtain ⟨s₀, hold, hfrom⟩ : ∃ s₀, (replace = false → HoldsTimes t.outputs s₀ r) ∧
      (replace = false → ∀ x ∈ times s₀.points, ∃ s ∈ held, x ∈ times s.points) := by
    cases replace with
    | true => exact ⟨Series.empty, nofun, nofun⟩
    | false =>
      obtain ⟨-, bound, s₀, hholds, -, htimes⟩ := h.appending (hc.appends rfl)
      exact ⟨s₀, fun _ => hholds, fun _ => htimes⟩
  have hholds := holdsTimes_writeOutputs h.distinct hc.widths hc.times hold linked.bound
  rw [← hc.registry] at hholds
  refine ⟨_, hholds, bound_writeOutput _ _ _ _, fun x hx => ?_⟩
  obtain ⟨p, hp, rfl⟩ := List.mem_map.mp hx
  rcases mem_of_mem_writeOutput hp with ⟨hr, hp⟩ | hp
  · obtain ⟨s, hs, hx⟩ := hfrom hr p.x (List.mem_map_of_mem hp)
    exact ⟨s, List.mem_append_left _ hs, hx⟩
  · exact ⟨linked, by simp, List.mem_map_of_mem (hc.samples p hp)⟩

theorem committed (h : Synchronous d t r held) {linked : Series} {n : Nat}
    (hl : r.find? d.linked = some linked)
    (hpass : t.update r = (t', r', .done n) ∨ t.rebuild r = (t', r', .done n)) :
    SameSignal t t' ∧ HoldsTimesOf t'.outputs (held ++ [linked]) linked.bound r' ∧
      Synchronous d t' r' (held ++ [linked]) := by
  rw [← h.definition] at hl
  obtain ⟨replace, rows, more, hc⟩ := committed_of_done hl hpass
  have hwritten := h.written hc
  rw [← hc.signal.outputs] at hwritten
  exact ⟨hc.signal, hwritten,
    { definition := hc.signal.definition.trans h.definition
      distinct := hc.signal.outputs ▸ h.distinct
      staged := by simp [hc.staged]
      appending := fun _ => ⟨hc.staged, linked.bound, hwritten⟩ }⟩

theorem of_run (h : SoleWriter d start t r held) : Synchronous d t r held := by
  induction h with
  | compiled r hc => exact of_compile hc r
  | elsewhere r' _ hout ih => exact ih.elsewhere hout
  | register _ ih => exact ih.register
  | committed _ hl hpass ih => exact (ih.committed hl hpass).2.2
  | idle _ hl hpass ih => exact ih.idle hl hpass
  | failed _ hpass ih => exact ih.failed hpass

end Synchronous

/-- An operation leaves every series alone that is not an output of the signal. If nobody else touches the
outputs, a pass that succeeds leaves all of them with the bound of the linked series and with the same
timestamps, each of a sample that the linked series had at such a pass. -/
theorem writes_only_outputs :
    (∀ {σ : Type} [Evaluator σ] {d : Definition} {start : σ} {t : Transform σ} {r₀ : Registry}
      {created : List String}, Lifecycle d start (fun _ _ => True) t r₀ created →
      ∀ (r : Registry) (q : String), q ∉ t.outputs →
        (t.register r).2.find? q = r.find? q ∧ (t.update r).2.1.find? q = r.find? q ∧
        (t.rebuild r).2.1.find? q = r.find? q ∧ (t.remove r).find? q = r.find? q) ∧
    ∀ {d : Definition} {start : Session} {t t' : Transform Session} {r r' : Registry}
      {held : List Series} {linked : Series} {n : Nat}, SoleWriter d start t r held →
      r.find? d.linked = some linked →
      (t.update r = (t', r', .done n) ∨ t.rebuild r = (t', r', .done n)) →
      t'.outputs = t.outputs ∧ HoldsTimesOf t'.outputs (held ++ [linked]) linked.bound r' := by
  refine ⟨fun h r q hq => find?_of_operation h.staged_outputs r hq, ?_⟩
  intro d start t t' r r' held linked n h hl hpass
  obtain ⟨hsame, hholds, -⟩ := (Synchronous.of_run h).committed hl hpass
  exact ⟨hsame.outputs, hholds⟩

/-- Between two updates the samples of the linked series are exchanged for later ones: the first one is
still in both outputs. -/
theorem writes_only_outputs_exchanged :
    ∃ (t t' : Transform Session) (r r' : Registry),
      let d : Definition := ⟨"f", "x", "", "[value, -value]"⟩
      let linked : Series := ⟨[⟨5, 1⟩, ⟨6, 2⟩], none⟩
      Lifecycle d (Session.new {}) (fun _ _ => True) t r [] ∧ "x" ∉ t.outputs ∧
      (t.register r).2.find? "x" = r.find? "x" ∧ (t.remove r).find? "x" = r.find? "x" ∧
      SoleWriter d (Session.new {}) t r [⟨[⟨0, 1⟩], none⟩] ∧ r.find? "x" = some linked ∧
      t.update r = (t', r', .done 2) ∧ t'.outputs = ["f.0", "f.1"] ∧
      HoldsTimesOf t'.outputs [⟨[⟨0, 1⟩], none⟩, linked] none r' ∧
      times (r'.getD "f.1").points = [0, 5, 6] := by
  let d : Definition := ⟨"f", "x", "", "[value, -value]"⟩
  let first : Series := ⟨[⟨0, 1⟩], none⟩
  let linked : Series := ⟨[⟨5, 1⟩, ⟨6, 2⟩], none⟩
  let r₀ : Registry := NameMap.empty.insert "x" first
  let one (t : Transform Session) := (t.register r₀).1.update (t.register r₀).2
  let next (t : Transform Session) : Registry := (one t).2.1.insert "x" linked
  obtain ⟨s, t, hc, hfirst, hone, hothers, apart, hlinked, htwo, houtputs, htimes⟩ : ∃ s t,
      compile d (Session.new {}) = (s, .done t) ∧ (t.register r₀).2.find? "x" = some first ∧
      (one t).2.2 = .done 1 ∧ (∀ q ∈ (one t).1.outputs, (next t).find? q = (one t).2.1.find? q) ∧
      "x" ∉ (one t).1.outputs ∧ (next t).find? "x" = some linked ∧
      ((one t).1.update (next t)).2.2 = .done 2 ∧
      ((one t).1.update (next t)).1.outputs = ["f.0", "f.1"] ∧
      times (((one t).1.update (next t)).2.1.getD "f.1").points = [0, 5, 6] :=
    exists_compile_of_any (by decide +kernel)
  have hone' : (t.register r₀).1.update (t.register r₀).2 = ((one t).1, (one t).2.1, .done 1) :=
    eq_of_outcome hone
  have hcompiled : Lifecycle d (Session.new {}) (fun _ _ => True) t r₀ [] := .compiled r₀ hc
  have hlife : Lifecycle d (Session.new {}) (fun _ _ => True) (one t).1 (next t) [] :=
    (hcompiled.register.update hone' (by simp)).elsewhere trivial
  have hstart : SoleWriter d (Session.new {}) t r₀ [] := .compiled r₀ hc
  have hrun := (hstart.register.committed hfirst (.inl hone')).elsewhere (next t) hothers
  have hupdate := eq_of_outcome htwo
  obtain ⟨hregister, -, -, hremove⟩ := writes_only_outputs.1 hlife (next t) "x" apart
  obtain ⟨-, hholds⟩ := writes_only_outputs.2 hrun hlinked (.inl hupdate)
  exact ⟨_, _, _, _, hlife, apart, hregister, hremove, hrun, hlinked, hupdate, houtputs, hholds, htimes⟩

end DerivedSignal
