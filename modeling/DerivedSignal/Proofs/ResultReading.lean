import DerivedSignal.Proofs.CommandAgreement
import DerivedSignal.Proofs.DoubleLiterals

namespace DerivedSignal

section Lists

variable {α β : Type} {f : α → Option β} {l : List α} {bs : List β}

theorem isSome_mapM : (l.mapM f).isSome = true ↔ ∀ a ∈ l, (f a).isSome = true := by
  induction l with
  | nil => simp
  | cons a l ih =>
    rw [List.forall_mem_cons, ← ih, List.mapM_cons]
    cases f a <;> cases l.mapM f <;> simp

theorem forall₂_of_mapM_eq (h : l.mapM f = some bs) : List.Forall₂ (fun a b => f a = some b) l bs := by
  induction l generalizing bs with
  | nil =>
    cases h
    exact .nil
  | cons a l ih =>
    simp only [List.mapM_cons, Option.bind_eq_bind, Option.bind_eq_some_iff, Option.pure_def, Option.some.injEq] at h
    obtain ⟨b, hb, cs, hcs, rfl⟩ := h
    exact .cons hb (ih hcs)

end Lists

/-- A point whose place and value are finite. -/
def Point.Finite (p : Point) : Prop := p.x.isFinite = true ∧ p.y.isFinite = true

instance : DecidablePred Point.Finite := fun p =>
  inferInstanceAs (Decidable (p.x.isFinite = true ∧ p.y.isFinite = true))

namespace Exchange

open Json (Value)

/-- What is written for a point. -/
def ofPair (p : Point) : Value := .array [Value.ofFloat p.x, Value.ofFloat p.y]

theorem isSome_pair? (p : Point) : (pair? (ofPair p)).isSome = true ↔ p.Finite := by
  rw [Point.Finite, ← Json.float?_ofFloat, ← Json.float?_ofFloat, ofPair, pair?]
  cases float? (Value.ofFloat p.x) <;> cases float? (Value.ofFloat p.y) <;> simp

/-- What is written for a series. -/
def ofPairs (points : List Point) : Value := .array (points.map ofPair)

theorem isSome_pairs? (points : List Point) : (pairs? (ofPairs points)).isSome = true ↔ ∀ p ∈ points, p.Finite := by
  rw [ofPairs, pairs?, isSome_mapM, List.forall_mem_map]
  exact forall₂_congr fun p _ => isSome_pair? p

theorem length_of_pairs? {points read : List Point} (h : pairs? (ofPairs points) = some read) :
    read.length = points.length := by
  rw [← (forall₂_of_mapM_eq h).length_eq, List.length_map]

/-- Every number of a snapshot is finite. -/
def Finite (s : Snapshot) : Prop := ∀ e ∈ s.entries, ∀ p ∈ e.2, p.Finite

instance : DecidablePred Finite := fun s => inferInstanceAs (Decidable (∀ e ∈ s.entries, ∀ p ∈ e.2, p.Finite))

/-- The names of the series and how many points each has. -/
def counts (s : Snapshot) : List (String × ℕ) := s.entries.map fun e => (e.1, e.2.length)

theorem ofSnapshot_eq (s : Snapshot) :
    ofSnapshot s = Value.ofMembers (s.entries.map fun e => (e.1, ofPairs e.2)) := rfl

theorem proper_ofSnapshot (s : Snapshot) : (ofSnapshot s).Proper := by
  rw [ofSnapshot_eq]
  refine .object fun m hm => ?_
  obtain ⟨e, -, rfl⟩ := List.mem_map.mp hm
  refine .array fun v hv => ?_
  obtain ⟨p, -, rfl⟩ := List.mem_map.mp hv
  refine .array fun v hv => ?_
  rcases List.mem_pair.mp hv with rfl | rfl
  · exact Json.Value.proper_ofFloat p.x
  · exact Json.Value.proper_ofFloat p.y

/-- Reads the points of an entry. -/
def readEntry (e : String × List Point) : Option (String × List Point) :=
  (pairs? (ofPairs e.2)).map fun points => (e.1, points)

theorem snapshot?_ofSnapshot (s : Snapshot) :
    snapshot? (ofSnapshot s) = (s.entries.mapM readEntry).map NameMap.ofList := by
  rw [ofSnapshot_eq, Value.ofMembers, snapshot?, List.map_map, List.mapM_map]
  have hentry : (fun m : Option String × Value =>
      m.1.bind fun name => (pairs? m.2).map fun points => (name, points)) ∘
      ((fun m : String × Value => (some m.1, m.2)) ∘ fun e => (e.1, ofPairs e.2)) = readEntry := rfl
  rw [hentry]
  cases s.entries.mapM readEntry <;> rfl

theorem sorted_of_names {entries : List (String × List Point)} {s : Snapshot}
    (h : entries.map (·.1) = s.names) : entries.Pairwise fun a b => a.1 < b.1 := by
  have hsorted : s.names.Pairwise (· < ·) := List.pairwise_map.mpr s.sorted
  rw [← h] at hsorted
  exact List.pairwise_map.mp hsorted

/-- A snapshot is read from what is written for it just if its numbers are finite, and then it has the same
series with as many points. -/
theorem snapshot_read_back (s : Snapshot) :
    ((snapshot? (ofSnapshot s)).isSome = true ↔ Finite s) ∧
      ∀ read, snapshot? (ofSnapshot s) = some read → counts read = counts s := by
  rw [snapshot?_ofSnapshot]
  constructor
  · rw [Option.isSome_map, isSome_mapM]
    refine forall₂_congr fun e _ => ?_
    rw [readEntry, Option.isSome_map, isSome_pairs?]
  · intro read h
    obtain ⟨entries, hentries, rfl⟩ := Option.map_eq_some_iff.mp h
    have hcounts : counts s = entries.map fun e => (e.1, e.2.length) := by
      refine List.forall₂_eq_eq_eq ▸ List.rel_map (fun e e' he => ?_) (forall₂_of_mapM_eq hentries)
      obtain ⟨points, hpoints, rfl⟩ := Option.map_eq_some_iff.mp he
      rw [length_of_pairs? hpoints]
    have hnames : entries.map (·.1) = s.names := by
      simpa [counts, NameMap.names, Function.comp_def] using (congrArg (List.map Prod.fst) hcounts).symm
    have hread := NameMap.ofList_entries (⟨entries, sorted_of_names hnames⟩ : Snapshot)
    rw [hread]
    exact hcounts.symm

end Exchange

namespace CommandLine

variable {c : Config} {t t' : FileTree} {definitions data text dataText : String} {target : Option String}
  {withInputs : Bool} {outcome : Outcome} {m : NameMap Definition} {inputs : Snapshot}

/-- The series that an evaluation without failures has as its results. -/
def Evaluated (c : Config) (t : FileTree) (definitions data : String) (withInputs : Bool)
    (written : Snapshot) : Prop :=
  ∃ dataText inputs text s r, t.readText data = .ok dataText ∧
    (Json.parse? dataText).bind Exchange.snapshot? = some inputs ∧ t.readText definitions = .ok text ∧
    (TransformSet.empty c.limits).loadDocument (Registry.ofSnapshot inputs) text = (s, r, .done []) ∧
    written = if withInputs then r.snapshot else r.snapshotOf (outputsOf s)

/-- What a data file has as its series that holds the results: the file they are in, or what was printed. -/
def reread (target : Option String) (t : FileTree) (outcome : Outcome) : Option Snapshot :=
  let text := match target with
    | none => some outcome.output
    | some path => (t.readText path).toOption
  text.bind fun text => (Json.parse? text).bind Exchange.snapshot?

theorem reread_of_delivered {written : Snapshot}
    (h : Delivered target t outcome.output ((Exchange.ofSnapshot written).pretty 0)) :
    reread target t outcome = Exchange.snapshot? (Exchange.ofSnapshot written) := by
  have hproper := Exchange.proper_ofSnapshot written
  cases target with
  | none =>
    have hparse : Json.parse? ((Exchange.ofSnapshot written).pretty 0 ++ "\n") = _ :=
      Json.parse?_pretty hproper (by simp [Json.isBlank])
    have hprinted : outcome.output = (Exchange.ofSnapshot written).pretty 0 ++ "\n" := h
    simp only [reread, hprinted, Option.bind_some, hparse]
  | some path =>
    have hparse : Json.parse? ((Exchange.ofSnapshot written).pretty 0 ++ "") = _ :=
      Json.parse?_pretty hproper (List.forall_mem_nil _)
    rw [String.append_empty] at hparse
    simp only [reread, h.2, Except.toOption, Option.bind_some, hparse]

theorem deliver_succeeds {failures : TransformSet.Failures} {text : String}
    (h : (deliver target failures text).run t = (t', outcome)) (hstatus : outcome.status = some 0) :
    failures = [] ∧ Delivered target t' outcome.output text := by
  cases target with
  | none =>
    cases h
    rw [status_conclude] at hstatus
    subst hstatus
    exact ⟨rfl, rfl⟩
  | some path =>
    simp only [deliver, Dialogue.writeText, bind, Dialogue.andThen, Dialogue.run] at h
    cases hwrite : t.write path text with
    | error e =>
      simp only [hwrite, Dialogue.answered, pure, Dialogue.run] at h
      cases h
      cases hstatus
    | ok written =>
      simp only [hwrite, Dialogue.answered, pure, Dialogue.run] at h
      cases h
      rw [status_conclude] at hstatus
      subst hstatus
      exact ⟨rfl, rfl, FileTree.readText_write hwrite⟩

/-- An evaluation that succeeds has read its files, adds all definitions without failures and delivers the
series. -/
theorem evaluated_of_success
    (h : (execute c (.evaluate definitions data target withInputs)).run t = (t', outcome))
    (hstatus : outcome.status = some 0) :
    ∃ written, Evaluated c t definitions data withInputs written ∧
      Delivered target t' outcome.output ((Exchange.ofSnapshot written).pretty 0) := by
  simp only [execute, evaluate, Dialogue.readText, bind, Dialogue.andThen, Dialogue.run] at h
  cases hdata : t.readText data with
  | error e =>
    rw [hdata] at h
    cases h
    cases hstatus
  | ok dataText =>
    simp only [hdata] at h
    cases hinputs : (Json.parse? dataText).bind Exchange.snapshot? with
    | none =>
      simp only [hinputs] at h
      cases h
      cases hstatus
    | some inputs =>
      simp only [hinputs, Storage.loadSet, Storage.readFile, Dialogue.readText, bind, Dialogue.andThen,
        Dialogue.run] at h
      cases htext : t.readText definitions with
      | error e =>
        simp only [htext] at h
        cases h
        cases hstatus
      | ok text =>
        simp only [htext, pure, Dialogue.andThen] at h
        obtain ⟨⟨s, r, added⟩, hadded⟩ : ∃ result,
          (TransformSet.empty c.limits).loadDocument (Registry.ofSnapshot inputs) text = result := ⟨_, rfl⟩
        rw [hadded] at h
        cases added with
        | abort why =>
          cases h
          cases why <;> cases hstatus
        | failed e =>
          cases h
          cases hstatus
        | done failures =>
          obtain ⟨rfl, hdelivered⟩ := deliver_succeeds h hstatus
          exact ⟨_, ⟨dataText, inputs, text, s, r, hdata, hinputs, htext, hadded, rfl⟩, hdelivered⟩

/-- What a successful evaluation writes is a data file just if all numbers of its results are finite, and what is
read from it has the same series with as many points. -/
theorem results_read_back
    (h : (execute c (.evaluate definitions data target withInputs)).run t = (t', outcome))
    (hstatus : outcome.status = some 0) :
    ∃ written, Evaluated c t definitions data withInputs written ∧
      ((reread target t' outcome).isSome = true ↔ Exchange.Finite written) ∧
      ∀ read, reread target t' outcome = some read → Exchange.counts read = Exchange.counts written := by
  obtain ⟨written, hevaluated, hdelivered⟩ := evaluated_of_success h hstatus
  rw [reread_of_delivered hdelivered]
  exact ⟨written, hevaluated, Exchange.snapshot_read_back written⟩

/-- Saved definitions that all pass on the series of a data file are evaluated without failures. -/
theorem passing_evaluation (keyed : ∀ e ∈ m.entries, e.2.name = e.1)
    (hfits : ∀ d ∈ m.values, Document.DefinitionFits d ∧ d.trimmed = d)
    (hinputs : (Json.parse? dataText).bind Exchange.snapshot? = some inputs)
    (hpasses : ((TransformSet.empty c.limits).addAll (Registry.ofSnapshot inputs) m.values).2.2.map
      (·.isEmpty) = .done true) (withInputs : Bool) :
    ∃ t t' outcome, t.readText "m.xml" = .ok (Document.writeDefinitions m) ∧
      t.readText "x.json" = .ok dataText ∧
      (execute c (.evaluate "m.xml" "x.json" (some "out.json") withInputs)).run t = (t', outcome) ∧
      outcome.status = some 0 ∧ ∀ written, Evaluated c t "m.xml" "x.json" withInputs written →
        written =
          let (s, r, _) := (TransformSet.empty c.limits).addAll (Registry.ofSnapshot inputs) m.values
          if withInputs then r.snapshot else r.snapshotOf (outputsOf s) := by
  obtain ⟨t, htext, hdata, hwritable⟩ := files_at_root (Document.writeDefinitions m) dataText
  have hm : Document.readDefinitions (Document.writeDefinitions m) = .ok m := by
    rw [Document.readDefinitions_written keyed fun d hd => (hfits d hd).1,
      NameMap.mapValues_eq_self fun d hd => (hfits d hd).2]
  have hwritable : ∀ path ∈ some "out.json", t.Writable path := by
    rintro path ⟨⟩
    exact hwritable
  obtain ⟨⟨s, r, added⟩, hadded⟩ : ∃ result,
    (TransformSet.empty c.limits).addAll (Registry.ofSnapshot inputs) m.values = result := ⟨_, rfl⟩
  rw [hadded] at hpasses ⊢
  obtain ⟨failures, rfl, hempty⟩ := Attempt.of_map_eq_done hpasses
  obtain ⟨t', printed, hdelivered, -⟩ := run_deliver hwritable failures (results s r withInputs)
  refine ⟨t, t', conclude failures printed, htext, hdata, ?_, ?_, ?_⟩
  · rw [run_evaluate htext hm hdata hinputs, hadded]
    exact hdelivered
  · rw [status_conclude, ← List.isEmpty_iff, hempty]
  · rintro written ⟨dataText', inputs', text', s', r', hdata', hinputs', htext', hadded', rfl⟩
    cases hdata.symm.trans hdata'
    cases hinputs.symm.trans hinputs'
    cases htext.symm.trans htext'
    simp only [TransformSet.loadDocument, hm, hadded] at hadded'
    cases hadded'
    rfl

theorem eq_ofList_of_entries {read : Option Snapshot} {entries : List (String × List Point)}
    (h : read.map (·.entries) = some entries) : read = some (NameMap.ofList entries) := by
  obtain ⟨snapshot, rfl, rfl⟩ := Option.map_eq_some_iff.mp h
  rw [NameMap.ofList_entries]

theorem results_read_back_negated :
    ∃ t t' outcome read,
      (execute {} (.evaluate "m.xml" "x.json" (some "out.json") true)).run t = (t', outcome) ∧
      outcome.status = some 0 ∧ reread (some "out.json") t' outcome = some read ∧
      Exchange.counts read = [("f", 2), ("x", 2)] := by
  let m : NameMap Definition := NameMap.ofList [("f", ⟨"f", "x", "", "-value"⟩)]
  let dataText := "\x7b\"x\": [[0, 1], [1, 2]]\x7d"
  let inputs : Snapshot := NameMap.ofList [("x", [⟨0, 1⟩, ⟨1, 2⟩])]
  have hinputs : (Json.parse? dataText).bind Exchange.snapshot? = some inputs :=
    eq_ofList_of_entries (by decide +kernel)
  obtain ⟨t, t', outcome, -, -, hrun, hstatus, hwritten⟩ :=
    passing_evaluation (c := {}) (m := m) (by decide +kernel) (by decide +kernel) hinputs (by decide +kernel) true
  obtain ⟨written, hevaluated, hreadable, hcounts⟩ := results_read_back hrun hstatus
  have hfinite : Exchange.Finite written ∧ Exchange.counts written = [("f", 2), ("x", 2)] := by
    rw [hwritten written hevaluated]
    decide +kernel
  obtain ⟨read, hread⟩ := Option.isSome_iff_exists.mp (hreadable.mpr hfinite.1)
  exact ⟨t, t', outcome, read, hrun, hstatus, hread, (hcounts read hread).trans hfinite.2⟩

/-- A sample before the first one of its channel has the result NaN: what this evaluation writes is no data file. -/
theorem results_not_read_back :
    ∃ t t' outcome,
      t.readText "m.xml" = .ok (Document.writeDefinitions (NameMap.ofList [("f", ⟨"f", "a", "", "$$b$$"⟩)])) ∧
      t.readText "x.json" = .ok "\x7b\"a\": [[0, 1]], \"b\": [[1, 2]]\x7d" ∧
      (execute {} (.evaluate "m.xml" "x.json" (some "out.json") false)).run t = (t', outcome) ∧
      outcome.status = some 0 ∧
      t'.readText "out.json" =
        .ok "\x7b\n  \"f\": [\n    [\n      0.0,\n      null\n    ]\n  ]\n\x7d" ∧
      reread (some "out.json") t' outcome = none := by
  let inputs : Snapshot := NameMap.ofList [("a", [⟨0, 1⟩]), ("b", [⟨1, 2⟩])]
  have hinputs : (Json.parse? "\x7b\"a\": [[0, 1]], \"b\": [[1, 2]]\x7d").bind Exchange.snapshot? = some inputs :=
    eq_ofList_of_entries (by decide +kernel)
  obtain ⟨t, t', outcome, htext, hdata, hrun, hstatus, hwritten⟩ :=
    passing_evaluation (c := {}) (m := NameMap.ofList [("f", ⟨"f", "a", "", "$$b$$"⟩)]) (by decide +kernel)
      (by decide +kernel) hinputs (by decide +kernel) false
  obtain ⟨written, hevaluated, hdelivered⟩ := evaluated_of_success hrun hstatus
  have hresults : (Exchange.ofSnapshot written).pretty 0 =
      "\x7b\n  \"f\": [\n    [\n      0.0,\n      null\n    ]\n  ]\n\x7d" ∧ ¬ Exchange.Finite written := by
    rw [hwritten written hevaluated]
    decide +kernel
  refine ⟨t, t', outcome, htext, hdata, hrun, hstatus, ?_, ?_⟩
  · rw [← hresults.1]
    exact hdelivered.2
  · rw [reread_of_delivered hdelivered, ← Option.not_isSome_iff_eq_none, (Exchange.snapshot_read_back written).1]
    exact hresults.2

end CommandLine

end DerivedSignal
