import DerivedSignal.Proofs.Lifecycle
import DerivedSignal.Proofs.OutputNames
import DerivedSignal.Proofs.SeriesLookups
import DerivedSignal.Proofs.Timestamps

namespace DerivedSignal

open FloatOrder Transform

namespace OutputShape

theorem outputNames_nodup_iff (shape : OutputShape) (base : String) :
    (shape.outputNames base).Nodup ↔ shape.DistinctKeys := by
  refine ⟨fun h => ?_, fun h => outputNames_nodup h base⟩
  cases shape with
  | scalar => trivial
  | vector size => trivial
  | keyed keys => exact h.of_map

end OutputShape

namespace Series

variable {pushed ps : List Point} {s : Series}

/-- A series that has been kept in its window lies in the window of each of its samples. -/
theorem WellKept.not_lt_sub (h : WellKept pushed s) {b : Float} (hb : s.bound = some b) {x y : Float}
    (hx : x ∈ times s.points) (hy : y ∈ times s.points) : ¬ x < y - b := by
  obtain ⟨p, hp, rfl⟩ := List.mem_map.mp hx
  obtain ⟨q, hq, rfl⟩ := List.mem_map.mp hy
  obtain ⟨back, hlast⟩ := Option.isSome_iff_exists.mp (List.getLast?_isSome.mpr (List.ne_nil_of_mem hq))
  exact fun hlt => h.window b back hb hlast p hp (lt_sub_of_lt_sub (le_of_getLast? h.ascending hlast q hq) hlt)

/-- Samples at timestamps of a series, pushed to an empty one with its bound, are all kept. -/
theorem WellKept.pushAll_eq (h : WellKept pushed s) (hx : (times ps).Sublist (times s.points)) :
    pushAll ⟨[], s.bound⟩ ps = ⟨ps, s.bound⟩ := by
  obtain ⟨kept, hkept, htimes⟩ := List.sublist_map_iff.mp hx
  have hascending : Ascending ps := ascending_of_xs htimes (ascending_sublist hkept h.ascending)
  exact pushAll_eq_append (show Ascending ([] ++ ps) from hascending) fun b hb p hp q hq =>
    h.not_lt_sub hb (hx.subset (List.mem_map_of_mem hp)) (hx.subset (List.mem_map_of_mem hq))

end Series

/-- Steps of a commit to different outputs can be taken in any order. -/
theorem Write.foldl_perm {ws ws' : List Write} (hn : (ws.map (·.output)).Nodup) (h : ws'.Perm ws)
    (replace : Bool) (bound : Option Float) (r : Registry) :
    ws'.foldl (Write.run replace bound) r = ws.foldl (Write.run replace bound) r := by
  have hn' : (ws'.map (·.output)).Nodup := (h.map (·.output)).nodup_iff.mpr hn
  refine NameMap.ext_find? fun q => ?_
  by_cases hq : q ∈ ws.map (·.output)
  · obtain ⟨w, hw, rfl⟩ := List.mem_map.mp hq
    rw [find?_foldl_of_mem hn hw, find?_foldl_of_mem hn' (h.mem_iff.mpr hw)]
  · have hq' : q ∉ ws'.map (·.output) := fun hm => hq ((h.map (·.output)).mem_iff.mp hm)
    rw [find?_foldl_of_not_mem hq, find?_foldl_of_not_mem hq']

namespace Transform

variable {σ : Type} {t t' : Transform σ} {r r' : Registry} {linked : Series} {n : Nat}

/-- A commit takes a step for each output and never comes back to one: each step finds its output as it was
before the pass, so that the order of the steps does not matter, and every output gets its column. -/
structure CommitsApart (t : Transform σ) (r : Registry) (p : Pass) (replace : Bool) : Prop where
  outputs : (p.writes 0 t.outputs).map (·.output) = t.outputs
  once : ∀ front w back, p.writes 0 t.outputs = front ++ w :: back →
    w.output ∉ front.map (·.output) ∧ w.output ∉ back.map (·.output) ∧
    (front.foldl (Write.run replace p.bound) r).find? w.output = r.find? w.output
  any_order : ∀ ws : List Write, ws.Perm (p.writes 0 t.outputs) →
    (t.commit r p replace).2.1 = ws.foldl (Write.run replace p.bound) r
  column : ∀ i q, t.outputs[i]? = some q → (t.commit r p replace).2.1.find? q =
    some (writeOutput replace p.bound (p.column i) (r.getD q))
  elsewhere : ∀ q, q ∉ t.outputs → (t.commit r p replace).2.1.find? q = r.find? q

theorem commitsApart (hn : t.outputs.Nodup) (r : Registry) (p : Pass) (replace : Bool) :
    t.CommitsApart r p replace := by
  have houtputs := p.outputs_writes 0 t.outputs
  have hn' : ((p.writes 0 t.outputs).map (·.output)).Nodup := by rwa [houtputs]
  refine
    { outputs := houtputs
      once := fun front w back hsplit => ?_
      any_order := fun ws hws => ?_
      column := fun i q hq => ?_
      elsewhere := fun q hq => find?_writeOutputs_of_not_mem hq }
  · rw [hsplit] at hn'
    obtain ⟨hfront, hback⟩ := Write.not_mem_of_split hn'
    exact ⟨hfront, hback, Write.find?_foldl_of_not_mem hfront⟩
  · rw [Write.foldl_perm hn' hws]
    exact writeOutputs_eq_foldl replace p 0 t.outputs r
  · rw [commit, find?_writeOutputs hn hq, Nat.zero_add]

variable [Evaluator σ]

/-- What a pass over the whole linked series from the evaluator `s` on leaves in the outputs. Each one holds
its column, which has a point for every sample, and nothing else, under the bound of the linked series. If that
series was kept in its window, so is the column already. -/
def LeavesColumns (t : Transform σ) (r : Registry) (linked : Series) (s : σ) (r' : Registry) : Prop :=
  ∃ s' p, t.evaluate r FloatMath.negInfinity s = (s', .done (some p)) ∧ p.bound = linked.bound ∧
    ∀ i q, t.outputs[i]? = some q →
      times (p.column i) = times (linked.after FloatMath.negInfinity) ∧
      r'.find? q = some (Series.pushAll ⟨[], linked.bound⟩ (p.column i)) ∧
      ∀ pushed, SeriesRun pushed linked → r'.find? q = some ⟨p.column i, linked.bound⟩

theorem leavesColumns_of_finish {s s' : σ} {found : Option Pass} {replace : Bool} (hn : t.outputs.Nodup)
    (hl : r.find? t.definition.linked = some linked) (hr : replace = true)
    (he : t.evaluate r FloatMath.negInfinity s = (s', .done found))
    (hf : { t with evaluator := s' }.finish r replace (.done found) = (t', r', .done n)) :
    t.LeavesColumns r linked s r' := by
  subst hr
  obtain ⟨channels, rows, -, hrows, rfl⟩ := evaluateAll_of_evaluate hl he
  obtain ⟨htimes, hwidths⟩ := rows_of_evaluateAll hrows
  rw [finish_done] at hf
  cases hf
  refine ⟨s', _, he, rfl, fun i q hq => ?_⟩
  have hcolumn : times (Pass.column ⟨rows, linked.bound⟩ i) = times (linked.after FloatMath.negInfinity) :=
    (Pass.xs_column (fun row hrow => hwidths row hrow ▸ lt_arity_of_output hq) linked.bound).trans htimes
  have hfound : (writeOutputs true ⟨rows, linked.bound⟩ 0 t.outputs r).find? q =
      some (Series.pushAll ⟨[], linked.bound⟩ (Pass.column ⟨rows, linked.bound⟩ i)) := by
    rw [find?_writeOutputs hn hq, Nat.zero_add, writeOutput_replacing]
  refine ⟨hcolumn, hfound, fun pushed hrun => ?_⟩
  have hsub : (times (Pass.column ⟨rows, linked.bound⟩ i)).Sublist (times linked.points) := by
    rw [hcolumn]
    exact (List.drop_sublist _ linked.points).map _
  rw [hfound, (Series.WellKept.of_run hrun).pushAll_eq hsub]

theorem leavesColumns_of_update (hn : t.outputs.Nodup) (hl : r.find? t.definition.linked = some linked)
    (hmark : t.mark = FloatMath.negInfinity) (hr : t.replaces = true) (hu : t.update r = (t', r', .done n)) :
    t.LeavesColumns r linked (Evaluator.checkpoint t.evaluator) r' := by
  obtain ⟨s, found, he, hf⟩ := evaluate_of_update hu
  -- Before a pass that replaces the outputs nothing counts as evaluated yet.
  rw [hmark] at he
  exact leavesColumns_of_finish hn hl hr he hf

theorem leavesColumns_of_rebuild (hn : t.outputs.Nodup) (hl : r.find? t.definition.linked = some linked)
    (hu : t.rebuild r = (t', r', .done n)) :
    t.LeavesColumns r linked (Evaluator.reset (Evaluator.checkpoint t.evaluator)).1 r' := by
  obtain ⟨s, s', found, hreset, he, hf⟩ := evaluate_of_rebuild hl hu
  rw [hreset]
  exact leavesColumns_of_finish hn hl rfl he hf

/-- A pass that takes over its results is the last one to replace outputs; any other leaves the mark alone. -/
theorem mark_of_isPass {outcome : Attempt Nat} (h : t.replaces = true → t.mark = FloatMath.negInfinity)
    (hpass : t.IsPass r (t', r', outcome)) : t'.replaces = true → t'.mark = FloatMath.negInfinity := by
  obtain ⟨s, replace, found, -, he⟩ := hpass
  cases found with
  | abort why =>
    cases he
    exact h
  | failed e =>
    cases he
    exact h
  | done p =>
    cases p with
    | none =>
      cases he
      exact h
    | some p =>
      rw [finish_done] at he
      cases he
      exact nofun

end Transform

/-- A signal whose next pass replaces the outputs starts over with the whole linked series. -/
theorem Lifecycle.mark_of_replaces {σ : Type} [Evaluator σ] {d : Definition} {start : σ}
    {outside : Registry → Registry → Prop} {t : Transform σ} {r : Registry} {created : List String}
    (h : Lifecycle d start outside t r created) : t.replaces = true → t.mark = FloatMath.negInfinity := by
  induction h with
  | compiled r hc => exact fun _ => (compiles_of_done hc).mark
  | elsewhere _ _ ih => exact ih
  | register _ _ => exact fun _ => rfl
  | @update t r created t' r' outcome _ hu _ ih =>
    exact mark_of_isPass ih (hu ▸ isPass_update t r)
  | @rebuild t r created t' r' outcome _ hu _ ih =>
    cases hl : r.find? t.definition.linked with
    | none =>
      rw [rebuild_of_absent hl] at hu
      cases hu
      exact ih
    | some linked => exact mark_of_isPass ih (hu ▸ isPass_rebuild hl)

/-- The names of outputs are different, however many elements an array has and whatever the keys of an object
are, if only no key comes twice, and the shape of a definition that compiles has no key twice. So whatever
happens to the signal afterwards, a commit writes each of its columns to a series of its own, once, and after
a pass that replaces the outputs each of them holds its own column under the bound of the linked series. -/
theorem outputs_are_series_of_their_own :
    (∀ (shape : OutputShape) (base : String), (shape.outputNames base).Nodup ↔ shape.DistinctKeys) ∧
    ∀ {d : Definition} {start s : Session} {fresh : Transform Session},
      compile d start = (s, .done fresh) → fresh.shape.DistinctKeys ∧ fresh.outputs.Nodup ∧
      ∀ {outside : Registry → Registry → Prop} {t : Transform Session} {r₀ : Registry}
        {created : List String}, Lifecycle d start outside t r₀ created →
        t.outputs = fresh.outputs ∧
        (∀ (r : Registry) (p : Pass) (replace : Bool), t.CommitsApart r p replace) ∧
        ∀ {r r' : Registry} {linked : Series} {t' : Transform Session} {n : Nat},
          r.find? d.linked = some linked →
          (t.replaces = true → t.update r = (t', r', .done n) →
            t.LeavesColumns r linked (Evaluator.checkpoint t.evaluator) r') ∧
          (t.rebuild r = (t', r', .done n) →
            t.LeavesColumns r linked (Evaluator.reset (Evaluator.checkpoint t.evaluator)).1 r') := by
  refine ⟨OutputShape.outputNames_nodup_iff, fun {d start s fresh} hc => ?_⟩
  have hfresh : fresh.outputs.Nodup := outputs_nodup (compiles_of_done hc)
  refine ⟨(OutputShape.outputNames_nodup_iff _ _).mp hfresh, hfresh, fun {outside t r₀ created} h => ?_⟩
  have hsame := h.sameSignal hc
  have hn : t.outputs.Nodup := hsame.outputs ▸ hfresh
  refine ⟨hsame.outputs, commitsApart hn, fun {r r' linked t' n} hl => ?_⟩
  rw [← (compiles_of_done hc).definition, ← hsame.definition] at hl
  exact ⟨fun hr hu => leavesColumns_of_update hn hl (h.mark_of_replaces hr) hr hu, leavesColumns_of_rebuild hn hl⟩

/-- One key is empty, the others begin with the marks that stand between a signal's name and what follows it.
The linked series has lost a sample to its window, and one of the outputs held something else before. -/
theorem outputs_are_series_of_their_own_odd_keys :
    ∃ (s : Session) (fresh t t' : Transform Session) (r r' : Registry) (created : List String)
      (linked : Series) (pushed : List Point),
      let d : Definition := ⟨"f", "x", "", "#\x7b\"/\": value + 1, \"\": value, \".0\": -value\x7d"⟩
      compile d (Session.new {}) = (s, .done fresh) ∧
      Lifecycle d (Session.new {}) (fun _ _ => False) t r created ∧
      fresh.outputs = ["f/", "f/.0", "f//"] ∧ fresh.outputs.Nodup ∧ t.outputs = fresh.outputs ∧
      r.find? "x" = some linked ∧ SeriesRun pushed linked ∧ r.find? "f/" = some ⟨[⟨9, 9⟩], none⟩ ∧
      t.replaces = true ∧ t.update r = (t', r', .done 2) ∧
      t.LeavesColumns r linked (Evaluator.checkpoint t.evaluator) r' ∧
      r'.find? "f/" = some ⟨[⟨1, 5⟩, ⟨2.5, 7⟩], some 2⟩ := by
  let d : Definition := ⟨"f", "x", "", "#\x7b\"/\": value + 1, \"\": value, \".0\": -value\x7d"⟩
  let linked : Series := (((Series.empty.setBound (some 2)).push ⟨0, 3⟩).push ⟨2.5, 7⟩).push ⟨1, 5⟩
  let r₀ : Registry := (NameMap.empty.insert "x" linked).insert "f/" ⟨[⟨9, 9⟩], none⟩
  let pass (t : Transform Session) := (t.register r₀).1.update (t.register r₀).2
  obtain ⟨s, fresh, hc, houtputs, hlinked, hold, hupdate, hwritten⟩ : ∃ s fresh,
      compile d (Session.new {}) = (s, .done fresh) ∧ fresh.outputs = ["f/", "f/.0", "f//"] ∧
      (fresh.register r₀).2.find? "x" = some linked ∧
      (fresh.register r₀).2.find? "f/" = some ⟨[⟨9, 9⟩], none⟩ ∧ (pass fresh).2.2 = .done 2 ∧
      (pass fresh).2.1.find? "f/" = some ⟨[⟨1, 5⟩, ⟨2.5, 7⟩], some 2⟩ :=
    exists_compile_of_any (by decide +kernel)
  have hfirst : SeriesRun [⟨0, 3⟩] ((Series.empty.setBound (some 2)).push ⟨0, 3⟩) :=
    (SeriesRun.new.setBound (some 2)).push (p := ⟨0, 3⟩) (by decide +kernel)
  have hsecond := hfirst.push (p := ⟨2.5, 7⟩) (by decide +kernel)
  have hrun := hsecond.push (p := ⟨1, 5⟩) (by decide +kernel)
  have hstart : Lifecycle d (Session.new {}) (fun _ _ => False) fresh r₀ [] := .compiled r₀ hc
  have hlife := hstart.register
  have hpass := eq_of_outcome hupdate
  obtain ⟨-, hdistinct, hlater⟩ := outputs_are_series_of_their_own.2 hc
  obtain ⟨hsame, -, hleaves⟩ := hlater hlife
  exact ⟨s, fresh, _, _, _, _, _, linked, _, hc, hlife, houtputs, hdistinct, hsame, hlinked, hrun, hold, rfl,
    hpass, (hleaves hlinked).1 rfl hpass, hwritten⟩

end DerivedSignal
