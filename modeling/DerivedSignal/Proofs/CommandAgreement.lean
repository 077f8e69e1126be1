import DerivedSignal.CommandLine
import DerivedSignal.Proofs.CleanAddition
import DerivedSignal.Proofs.DocumentLoading
import DerivedSignal.Proofs.SavedDocuments

namespace DerivedSignal

open Transform Definition

namespace Definition

/-- The names of those definitions that do not compile, or whose first pass fails on what the others before
them have left. -/
def failing (limits : Limits) : List Definition → Registry → List String
  | [], _ => []
  | d :: ds, r =>
    match load limits d r with
    | some r => failing limits ds r
    | none => d.name :: failing limits ds r

theorem failing_eq_nil_iff {limits : Limits} {ds : List Definition} {r : Registry} :
    failing limits ds r = [] ↔ (loadAll limits ds r).isSome = true := by
  induction ds generalizing r with
  | nil => exact iff_of_true rfl rfl
  | cons d ds ih =>
    rw [failing, loadAll]
    cases load limits d r with
    | none => simp
    | some u => exact ih

theorem mem_writes_iff {limits : Limits} {d : Definition} {q : String} :
    q ∈ writes limits d ↔ ∃ t, (compile d (Session.new limits)).2 = .done t ∧ q ∈ t.outputs := by
  simp only [← compiled?_eq_some_iff, writes]
  cases compiled? d (Session.new limits) with
  | none => simp
  | some t => simp

end Definition

namespace TransformSet

variable {s s' : TransformSet} {r r' : Registry} {d : Definition} {ds : List Definition}
  {failures : Failures}

theorem limits_of_add {outcome : Attempt (Transform Session)} (h : s.add r d = (s', r', outcome))
    (hn : outcome.Returns) : s'.limits = s.limits := by
  cases addition_of_add h hn with
  | uncompiled => rfl
  | undone => rw [remove_transforms]
  | joined => rw [remove_transforms]

/-- An addition that does not end the program has compiled the definition, or says why not. -/
theorem compile_of_add {outcome : Attempt (Transform Session)} (h : s.add r d = (s', r', outcome))
    (hn : outcome.Returns) :
    (compile d (Session.new s.limits)).2.Returns ∧
      ∀ e, (compile d (Session.new s.limits)).2 = .failed e →
        outcome = .failed (.context ("Failed to compile '" ++ d.name ++ "'") e) := by
  cases hc : (compile d (Session.new s.limits)).2 with
  | abort why =>
    simp only [add, hc] at h
    cases h
    exact hn.elim
  | failed e =>
    simp only [add, hc] at h
    cases h
    refine ⟨by simp, fun e' he => ?_⟩
    cases he
    rfl
  | done t => exact ⟨by simp, fun e he => by cases he⟩

/-- The first of several additions, and the others. -/
theorem first_of_addAll (h : s.addAll r (d :: ds) = (s', r', .done failures)) :
    ∃ s₁ r₁ outcome rest, s.add r d = (s₁, r₁, outcome) ∧ outcome.Returns ∧
      s₁.addAll r₁ ds = (s', r', .done rest) ∧
      ((∃ e, outcome = .failed e ∧ failures = (d.name, e) :: rest) ∨
        (∃ t, outcome = .done t) ∧ failures = rest) := by
  unfold addAll at h
  split at h
  next => cases h
  next s₁ r₁ e hadd =>
    generalize hrest : s₁.addAll r₁ ds = result at h
    obtain ⟨s₂, r₂, found⟩ := result
    cases found with
    | abort why => cases h
    | failed e' => cases h
    | done rest =>
      cases h
      exact ⟨s₁, r₁, _, rest, hadd, by simp, hrest, .inl ⟨e, rfl, rfl⟩⟩
  next s₁ r₁ t hadd => exact ⟨s₁, r₁, _, failures, hadd, by simp, h, .inr ⟨⟨t, rfl⟩, rfl⟩⟩

theorem compile_of_addAll (h : s.addAll r ds = (s', r', .done failures)) (hd : d ∈ ds) :
    (compile d (Session.new s.limits)).2.Returns ∧
      ∀ e, (compile d (Session.new s.limits)).2 = .failed e →
        (d.name, .context ("Failed to compile '" ++ d.name ++ "'") e) ∈ failures := by
  induction ds generalizing s r failures with
  | nil => cases hd
  | cons d' ds ih =>
    obtain ⟨s₁, r₁, outcome, rest, hadd, hn, hrest, hfailures⟩ := first_of_addAll h
    rcases List.mem_cons.mp hd with rfl | hd
    · obtain ⟨hgoes, hfails⟩ := compile_of_add hadd hn
      refine ⟨hgoes, fun e he => ?_⟩
      have houtcome := hfails e he
      rcases hfailures with ⟨e', he', rfl⟩ | ⟨⟨t, ht⟩, -⟩
      · rw [houtcome] at he'
        cases he'
        exact List.mem_cons_self
      · rw [houtcome] at ht
        cases ht
    · obtain ⟨hgoes, hfails⟩ := ih hrest hd
      rw [limits_of_add hadd hn] at hgoes hfails
      refine ⟨hgoes, fun e he => ?_⟩
      rcases hfailures with ⟨_, -, rfl⟩ | ⟨-, rfl⟩
      · exact List.mem_cons_of_mem _ (hfails e he)
      · exact hfails e he

theorem remove_of_new {name : String} (hnew : s.find? name = none) (r : Registry) :
    s.remove r name = (s, r) := by
  simp only [remove, hnew]

/-- A definition of a new name that fails changes nothing. -/
theorem failed_add_of_new {e : Error} (hnew : s.find? d.name = none)
    (h : s.add r d = (s', r', .failed e)) : s' = s ∧ r' = r := by
  have hremove := remove_of_new hnew r
  cases addition_of_add h (by simp) with
  | uncompiled => exact ⟨rfl, rfl⟩
  | undone => rw [hremove]; exact ⟨rfl, rfl⟩

/-- Of definitions of new names just those fail that do not compile or do not pass on what the others before
them have left. -/
theorem failures_of_addAll (hnew : ∀ d ∈ ds, s.find? d.name = none)
    (hdistinct : ds.Pairwise fun d e => d.name ≠ e.name)
    (h : s.addAll r ds = (s', r', .done failures)) :
    failures.map (·.1) = failing s.limits ds r := by
  induction ds generalizing s r failures with
  | nil =>
    cases h
    rfl
  | cons d ds ih =>
    obtain ⟨hd, hdistinct⟩ := List.pairwise_cons.mp hdistinct
    have hfresh := hnew d List.mem_cons_self
    obtain ⟨s₁, r₁, outcome, rest, hadd, hn, hrest, hfailures⟩ := first_of_addAll h
    have hnew₁ : ∀ e ∈ ds, s₁.find? e.name = none := fun e he =>
      (other_signal_of_add hadd hn (hd e he)).trans (hnew e (List.mem_cons_of_mem d he))
    have hlater := ih hnew₁ hdistinct hrest
    rw [limits_of_add hadd hn] at hlater
    rw [failing]
    rcases hfailures with ⟨e, rfl, rfl⟩ | ⟨⟨t, rfl⟩, rfl⟩
    · obtain ⟨rfl, rfl⟩ := failed_add_of_new hfresh hadd
      cases hload : load s₁.limits d r₁ with
      | none => rw [List.map_cons, hlater]
      | some u =>
        obtain ⟨t, hdone, -⟩ := add_of_load hfresh hload
        have houtcome := congrArg (·.2.2) (hadd.symm.trans hdone)
        cases houtcome
    · obtain ⟨fresh, n, hc, hpass, -, -⟩ := add_eq_done hadd
      rw [remove_of_new hfresh] at hpass
      rw [load_eq_some_iff.mpr ⟨fresh, t, n, hc, hpass⟩]
      exact hlater

/-- Every signal of the set comes from one of the definitions, has its outputs and has them in the
registry. -/
structure Filled (limits : Limits) (ds : List Definition) (s : TransformSet) (r : Registry) : Prop where
  limits_eq : s.limits = limits
  known : ∀ n t, s.find? n = some t → t.definition ∈ ds
  outputs : ∀ n t, s.find? n = some t → t.outputs = writes limits t.definition
  present : ∀ n t, s.find? n = some t → ∀ q ∈ t.outputs, r.contains q = true

variable {limits : Limits}

theorem filled_empty (limits : Limits) (ds : List Definition) (r : Registry) :
    Filled limits ds (empty limits) r := by
  refine ⟨rfl, ?_, ?_, ?_⟩ <;> intro n t h <;> cases h

theorem Filled.add {outcome : Attempt (Transform Session)} (h : Filled limits ds s r) (hd : d ∈ ds)
    (hnew : s.find? d.name = none) (hadd : s.add r d = (s', r', outcome)) (hn : outcome.Returns) :
    Filled limits ds s' r' := by
  cases outcome with
  | abort why => exact hn.elim
  | failed e =>
    obtain ⟨rfl, rfl⟩ := failed_add_of_new hnew hadd
    exact h
  | done t =>
    obtain ⟨fresh, n, hc, hpass, hsame, rfl⟩ := add_eq_done hadd
    rw [remove_of_new hnew] at hpass
    have hcompiles := compiles_of_done (Prod.ext rfl (compiled?_eq_some_iff.mp hc))
    have hdefinition : t.definition = d := hsame.definition.trans hcompiles.definition
    have hwritten : ∀ q ∈ fresh.outputs, r'.contains q = true :=
      contains_of_startOver (outputs_nodup hcompiles) hpass
    have hmember : ∀ m u,
        find? { s with transforms := (s.transforms.erase d.name).insert d.name t } m = some u →
          u = t ∨ s.find? m = some u := by
      intro m u hu
      rw [find?, NameMap.find?_insert] at hu
      split at hu
      next => exact .inl (Option.some.inj hu).symm
      next hne =>
        rw [NameMap.find?_erase, if_neg hne] at hu
        exact .inr hu
    rw [h.limits_eq] at hc
    refine ⟨h.limits_eq, fun m u hu => ?_, fun m u hu => ?_, fun m u hu q hq => ?_⟩
    · rcases hmember m u hu with rfl | hu
      · rwa [hdefinition]
      · exact h.known m u hu
    · rcases hmember m u hu with rfl | hu
      · simp only [writes, hdefinition, hc, hsame.outputs]
      · exact h.outputs m u hu
    · rcases hmember m u hu with rfl | hu
      · exact hwritten q (hsame.outputs ▸ hq)
      · by_cases hout : q ∈ fresh.outputs
        · exact hwritten q hout
        · rw [NameMap.contains, startOver_frame hpass hout]
          exact h.present m u hu q hq

theorem Filled.addAll {more : List Definition} (h : Filled limits ds s r) (hmore : ∀ d ∈ more, d ∈ ds)
    (hnew : ∀ d ∈ more, s.find? d.name = none)
    (hdistinct : more.Pairwise fun d e => d.name ≠ e.name)
    (hadd : s.addAll r more = (s', r', .done failures)) : Filled limits ds s' r' := by
  induction more generalizing s r failures with
  | nil =>
    cases hadd
    exact h
  | cons d more ih =>
    obtain ⟨hd, hdistinct⟩ := List.pairwise_cons.mp hdistinct
    obtain ⟨s₁, r₁, outcome, rest, hone, hn, hrest, -⟩ := first_of_addAll hadd
    have hfirst := h.add (hmore d List.mem_cons_self) (hnew d List.mem_cons_self) hone hn
    have hnew₁ : ∀ e ∈ more, s₁.find? e.name = none := fun e he =>
      (other_signal_of_add hone hn (hd e he)).trans (hnew e (List.mem_cons_of_mem d he))
    exact ih hfirst (fun e he => hmore e (List.mem_cons_of_mem d he)) hnew₁ hdistinct hrest

theorem mem_outputsOf {q : String} :
    q ∈ CommandLine.outputsOf s ↔ ∃ n t, s.find? n = some t ∧ q ∈ t.outputs := by
  rw [CommandLine.outputsOf, List.mem_flatMap]
  constructor
  · rintro ⟨t, ht, hq⟩
    obtain ⟨n, hn⟩ := mem_values_iff.mp ht
    exact ⟨n, t, hn, hq⟩
  · rintro ⟨n, t, hn, hq⟩
    exact ⟨t, mem_values_iff.mpr ⟨n, hn⟩, hq⟩

/-- A set that definitions were added to has the outputs of those that did not fail. -/
theorem outputs_of_addAll (hdistinct : ds.Pairwise fun d e => d.name ≠ e.name)
    (h : (empty limits).addAll r ds = (s', r', .done failures)) {q : String} :
    (q ∈ CommandLine.outputsOf s' ↔ ∃ d ∈ ds, d.name ∉ failures.map (·.1) ∧ q ∈ writes limits d) ∧
      (q ∈ CommandLine.outputsOf s' → r'.contains q = true) := by
  have hfilled := (filled_empty limits ds r).addAll (fun _ hd => hd) (fun _ _ => rfl) hdistinct h
  obtain ⟨hsound, -, failures', hsame, -, heach⟩ :=
    (@Reachable.empty limits).sound.held_of_addAll hdistinct h (by simp)
  cases hsame
  refine ⟨⟨fun hq => ?_, ?_⟩, fun hq => ?_⟩
  · obtain ⟨n, t, ht, hq⟩ := mem_outputsOf.mp hq
    have hheld : s'.Holds t.definition := ⟨t, by rw [(hsound n t ht).1, ht], rfl⟩
    have hknown := hfilled.known n t ht
    exact ⟨t.definition, hknown, fun hfailed => (heach _ hknown).mp hfailed hheld,
      hfilled.outputs n t ht ▸ hq⟩
  · rintro ⟨d, hd, hfailed, hq⟩
    obtain ⟨t, ht, rfl⟩ := not_not.mp fun hnot => hfailed ((heach d hd).mpr hnot)
    exact mem_outputsOf.mpr ⟨_, t, ht, hfilled.outputs _ t ht ▸ hq⟩
  · obtain ⟨n, t, ht, hq⟩ := mem_outputsOf.mp hq
    exact hfilled.present n t ht q hq

end TransformSet

theorem Registry.mem_names_snapshotOf {r : Registry} {wanted : List String} {q : String} :
    q ∈ (r.snapshotOf wanted).names ↔ q ∈ wanted ∧ r.contains q = true := by
  rw [NameMap.mem_names_iff, snapshotOf, snapshot, NameMap.find?_mapValues, Option.isSome_map,
    NameMap.find?_restrict, NameMap.contains]
  by_cases hq : q ∈ wanted
  · rw [if_pos (List.contains_iff_mem.mpr hq), and_iff_right hq]
  · rw [if_neg fun hc => hq (List.contains_iff_mem.mp hc)]
    simp [hq]

/-- A file can be written at a path, whatever its text. -/
def FileTree.Writable (t : FileTree) (path : String) : Prop :=
  ∀ text, ∃ t', t.write path text = .ok t'

namespace CommandLine

open TransformSet

variable {c : Config} {limits : Limits} {ds : List Definition} {failures : Failures}
  {t : FileTree} {definitions data text dataText : String} {m : NameMap Definition} {snapshot : Snapshot}
  {target : Option String} {withInputs : Bool}

/-- What is printed about a definition that is checked. -/
def verdict (limits : Limits) (d : Definition) : String :=
  match (compile d (Session.new limits)).2 with
  | .abort _ => ""
  | .failed e => d.name ++ ": " ++ e.message ++ "\n"
  | .done t => describe t

/-- Whether a definition does not compile. -/
def isBroken (limits : Limits) (d : Definition) : Bool := (compiled? d (Session.new limits)).isNone

theorem not_isBroken_iff {d : Definition} : ¬ isBroken limits d = true ↔
    ∃ u, (compile d (Session.new limits)).2 = .done u := by
  rw [isBroken, Option.isNone_iff_eq_none, ← ne_eq, Option.ne_none_iff_exists']
  exact exists_congr fun u => compiled?_eq_some_iff

theorem checkAll_cons {d : Definition} (hgoes : (compile d (Session.new limits)).2.Returns)
    (output : String) (n : Nat) (ds : List Definition) : checkAll limits output n (d :: ds) =
      checkAll limits (output ++ verdict limits d) (n + if isBroken limits d then 1 else 0) ds := by
  rw [checkAll, verdict, isBroken]
  cases hc : (compile d (Session.new limits)).2 with
  | abort why => exact absurd (hc ▸ hgoes) (Attempt.not_returns_abort why)
  | failed e => simp only [compiled?_of_failed hc, String.append_assoc, Option.isNone_none, if_true]
  | done t =>
    simp only [compiled?_eq_some_iff.mpr hc, Option.isNone_some, Bool.false_eq_true, if_false,
      Nat.add_zero]

theorem checkAll_eq (hgoes : ∀ d ∈ ds, (compile d (Session.new limits)).2.Returns) (output : String)
    (n : Nat) : checkAll limits output n ds =
      checkAll limits (output ++ String.join (ds.map (verdict limits)))
        (n + ds.countP (isBroken limits)) [] := by
  induction ds generalizing output n with
  | nil => simp
  | cons d ds ih =>
    rw [checkAll_cons (hgoes d List.mem_cons_self), ih fun e he => hgoes e (List.mem_cons_of_mem d he),
      List.map_cons, String.join_cons, List.countP_cons, String.append_assoc, Nat.add_assoc,
      Nat.add_comm (ds.countP _)]

theorem status_checkAll (output : String) (n : Nat) :
    (checkAll limits output n []).status = some 0 ↔ n = 0 := by
  rw [checkAll]
  split
  next h => exact iff_of_true rfl h
  next h => exact iff_of_false (by simp) h

theorem output_checkAll (output : String) (n : Nat) : (checkAll limits output n []).output = output := by
  rw [checkAll]
  split <;> rfl

theorem status_conclude (failures : Failures) (printed : String) :
    (conclude failures printed).status = some 0 ↔ failures = [] := by
  rw [conclude]
  cases failures with
  | nil => exact iff_of_true rfl rfl
  | cons f failures => exact iff_of_false (by simp) (List.cons_ne_nil f failures)

/-- Where the results of an evaluation are: in what is printed, or in the file. -/
def Delivered (target : Option String) (t : FileTree) (printed text : String) : Prop :=
  match target with
  | none => printed = text ++ "\n"
  | some path => printed = "" ∧ t.readText path = .ok text

theorem run_check (hdefinitions : t.readText definitions = .ok text)
    (hm : Document.readDefinitions text = .ok m) :
    (execute c (.check definitions)).run t = (t, checkAll c.limits "" 0 m.values) := by
  simp only [execute, check, Storage.loadDefinitions, Storage.readFile, Dialogue.readText, bind,
    Dialogue.andThen, Dialogue.run, hdefinitions, pure, Except.bind, hm]

theorem run_evaluate (hdefinitions : t.readText definitions = .ok text)
    (hm : Document.readDefinitions text = .ok m) (hdata : t.readText data = .ok dataText)
    (hsnapshot : (Json.parse? dataText).bind Exchange.snapshot? = some snapshot) :
    (execute c (.evaluate definitions data target withInputs)).run t =
      match (TransformSet.empty c.limits).addAll (Registry.ofSnapshot snapshot) m.values with
      | (_, _, .abort why) => (t, broken why "")
      | (_, _, .failed e) => (t, loadFailure definitions e)
      | (s, r, .done failures) => (deliver target failures (results s r withInputs)).run t := by
  simp only [execute, evaluate, Storage.loadSet, Storage.readFile, Dialogue.readText, bind,
    Dialogue.andThen, Dialogue.run, hdata, hsnapshot, hdefinitions, pure, loadDocument, hm]
  generalize (TransformSet.empty c.limits).addAll (Registry.ofSnapshot snapshot) m.values = result
  obtain ⟨s, r, outcome⟩ := result
  cases outcome <;> rfl

theorem run_deliver (htarget : ∀ path ∈ target, t.Writable path) (failures : Failures) (text : String) :
    ∃ t' printed, (deliver target failures text).run t = (t', conclude failures printed) ∧
      Delivered target t' printed text := by
  cases target with
  | none => exact ⟨t, _, rfl, rfl⟩
  | some path =>
    obtain ⟨t', hwrite⟩ := htarget path rfl text
    refine ⟨t', "", ?_, rfl, FileTree.readText_write hwrite⟩
    simp only [deliver, Dialogue.writeText, bind, Dialogue.andThen, Dialogue.run, hwrite,
      Dialogue.answered, pure]

/-- An evaluation that comes to an end and that no script brings down adds the definitions of the document and delivers the results. -/
theorem added_of_run_evaluate {evaluated : FileTree × Outcome}
    (hdefinitions : t.readText definitions = .ok text) (hm : Document.readDefinitions text = .ok m)
    (hdata : t.readText data = .ok dataText)
    (hsnapshot : (Json.parse? dataText).bind Exchange.snapshot? = some snapshot)
    (htarget : ∀ path ∈ target, t.Writable path)
    (hevaluated : (execute c (.evaluate definitions data target withInputs)).run t = evaluated)
    (hgoes : evaluated.2.status ≠ some 101) (hends : evaluated.2.status ≠ none) :
    ∃ s r failures printed,
      (TransformSet.empty c.limits).addAll (Registry.ofSnapshot snapshot) m.values =
        (s, r, .done failures) ∧
      evaluated.2 = conclude failures printed ∧
      Delivered target evaluated.1 printed (results s r withInputs) := by
  have hdistinct := (Document.values_of_readDefinitions hm).2.1.imp String.ne_of_lt
  rw [run_evaluate hdefinitions hm hdata hsnapshot] at hevaluated
  generalize hall : (TransformSet.empty c.limits).addAll (Registry.ofSnapshot snapshot) m.values =
    result at hevaluated ⊢
  obtain ⟨s, r, outcome⟩ := result
  have hn : outcome.Returns := by
    by_contra hn
    obtain ⟨why, rfl⟩ := Attempt.exists_abort_of_not_returns hn
    rw [← hevaluated] at hgoes hends
    cases why with
    | panic => exact hgoes rfl
    | endless => exact hends rfl
  obtain ⟨-, -, failures, rfl, -⟩ :=
    (@Reachable.empty c.limits).sound.held_of_addAll hdistinct hall hn
  obtain ⟨t', printed, hrun, hdelivered⟩ := run_deliver htarget failures (results s r withInputs)
  rw [← hevaluated]
  simp only [hrun]
  exact ⟨s, r, failures, printed, rfl, rfl, hdelivered⟩

/-- A definition that does not compile is reported by both commands, with the same error at its root. A check
succeeds just if every definition compiles, and an evaluation just if every definition compiles and its first
pass succeeds on what those before it have left. The series of the results are the outputs of the definitions
that the evaluation does not report. -/
theorem check_agrees_with_evaluate {checked evaluated : FileTree × Outcome}
    (hdefinitions : t.readText definitions = .ok text) (hm : Document.readDefinitions text = .ok m)
    (hdata : t.readText data = .ok dataText)
    (hsnapshot : (Json.parse? dataText).bind Exchange.snapshot? = some snapshot)
    (htarget : ∀ path ∈ target, t.Writable path)
    (hchecked : (execute c (.check definitions)).run t = checked)
    (hevaluated : (execute c (.evaluate definitions data target withInputs)).run t = evaluated)
    (hgoes : evaluated.2.status ≠ some 101) (hends : evaluated.2.status ≠ none) :
    ∃ (failures : Failures) (results : Snapshot) (printed : String),
      checked.2.output = String.join (m.values.map (verdict c.limits)) ∧
      evaluated.2 = conclude failures printed ∧
      Delivered target evaluated.1 printed ((Exchange.ofSnapshot results).pretty 0) ∧
      (∀ d ∈ m.values, ∀ e, (compile d (Session.new c.limits)).2 = .failed e →
        ∃ e', (d.name, e') ∈ failures ∧ e'.root = e.root) ∧
      (checked.2.status = some 0 ↔
        ∀ d ∈ m.values, ∃ u, (compile d (Session.new c.limits)).2 = .done u) ∧
      failures.map (·.1) = failing c.limits m.values (Registry.ofSnapshot snapshot) ∧
      (evaluated.2.status = some 0 ↔
        (loadAll c.limits m.values (Registry.ofSnapshot snapshot)).isSome = true) ∧
      (withInputs = false → ∀ q, q ∈ results.names ↔
        ∃ d ∈ m.values, d.name ∉ failures.map (·.1) ∧
          ∃ u, (compile d (Session.new c.limits)).2 = .done u ∧ q ∈ u.outputs) := by
  have hdistinct := (Document.values_of_readDefinitions hm).2.1.imp String.ne_of_lt
  obtain ⟨s, r, failures, printed, hall, hend, hdelivered⟩ :=
    added_of_run_evaluate hdefinitions hm hdata hsnapshot htarget hevaluated hgoes hends
  have hcompiles : ∀ d ∈ m.values, (compile d (Session.new c.limits)).2.Returns := fun d hd =>
    (compile_of_addAll hall hd).1
  rw [run_check hdefinitions hm, checkAll_eq hcompiles] at hchecked
  rw [← hchecked, hend]
  have hfailures := failures_of_addAll (fun _ _ => rfl) hdistinct hall
  refine ⟨failures, _, printed, ?_, rfl, hdelivered, ?_, ?_, hfailures, ?_, ?_⟩
  · rw [output_checkAll, String.empty_append]
  · intro d hd e he
    exact ⟨_, (compile_of_addAll hall hd).2 e he, rfl⟩
  · rw [status_checkAll, Nat.zero_add, List.countP_eq_zero]
    exact forall₂_congr fun d _ => not_isBroken_iff
  · rw [status_conclude, ← List.map_eq_nil_iff, hfailures]
    exact failing_eq_nil_iff
  · rintro rfl q
    obtain ⟨houtputs, hpresent⟩ := outputs_of_addAll (q := q) hdistinct hall
    rw [if_neg Bool.false_ne_true, Registry.mem_names_snapshotOf, and_iff_left_of_imp hpresent, houtputs]
    exact exists_congr fun d => and_congr_right fun _ => and_congr_right fun _ => mem_writes_iff

theorem status_conclude_ne (failures : Failures) (printed : String) :
    (conclude failures printed).status ≠ some 101 ∧ (conclude failures printed).status ≠ none := by
  cases failures <;> simp [conclude]

/-- A tree with two files at its root, to which others can be added. -/
theorem files_at_root (text dataText : String) :
    ∃ t : FileTree, t.readText "m.xml" = .ok text ∧ t.readText "x.json" = .ok dataText ∧
      t.Writable "out.json" := by
  let t : FileTree := ⟨[(["m.xml"], text.toUTF8), (["x.json"], dataText.toUTF8)], []⟩
  have hroot : t.entry? [] = some .directory := rfl
  have hlocate : ∀ name ∈ ["m.xml", "x.json", "out.json"], t.locate name = .ok [name] := by
    simp [FileTree.locate, pathParts, partsBehind, FileTree.walk, hroot]
  have hread : ∀ name content, t.locate name = .ok [name] →
      t.entry? [name] = some (.file (String.toUTF8 content)) → t.readText name = .ok content := by
    intro name content hlocate hentry
    simp only [FileTree.readText, FileTree.read, hlocate, hentry, Except.bind, FileFault.decode,
      FileTree.fromUTF8?_toUTF8]
  refine ⟨t, hread _ _ (hlocate _ (by simp)) rfl, hread _ _ (hlocate _ (by simp)) rfl, ?_⟩
  intro written
  rw [FileTree.write, hlocate "out.json" (by simp)]
  exact ⟨_, rfl⟩

/-- Of three definitions one does not compile and one does not find a channel in its first pass; the results
are those of the third one, in a file. -/
theorem check_agrees_with_evaluate_mixed :
    ∃ (t t' : FileTree) (results : Snapshot) (failures : Failures) (checked : Outcome),
      (execute {} (.check "m.xml")).run t = (t, checked) ∧ checked.status ≠ some 0 ∧
      (execute {} (.evaluate "m.xml" "x.json" (some "out.json") false)).run t =
        (t', conclude failures "") ∧ (conclude failures "").status ≠ some 0 ∧
      failures.map (·.1) = ["a", "b"] ∧
      (∃ e, ("a", e) ∈ failures ∧ e.root = .compile "expression: syntax error") ∧
      (∀ q, q ∈ results.names ↔ q = "c") ∧
      t'.readText "out.json" = .ok ((Exchange.ofSnapshot results).pretty 0) := by
  let m : NameMap Definition := NameMap.ofList [("a", ⟨"a", "x", "", "1 +"⟩),
    ("b", ⟨"b", "x", "", "$$ghost$$"⟩), ("c", ⟨"c", "x", "", "-value"⟩)]
  let dataText := "\x7b\"x\": [[0, 1], [1, 2]]\x7d"
  obtain ⟨t, htext, hdata, hwritable⟩ := files_at_root (Document.writeDefinitions m) dataText
  have hfits : ∀ d ∈ m.values, Document.DefinitionFits d ∧ d.trimmed = d := by decide +kernel
  have hm : Document.readDefinitions (Document.writeDefinitions m) = .ok m := by
    rw [Document.readDefinitions_written (by decide +kernel) fun d hd => (hfits d hd).1,
      NameMap.mapValues_eq_self fun d hd => (hfits d hd).2]
  let snapshot : Snapshot := NameMap.ofList [("x", [⟨0, 1⟩, ⟨1, 2⟩])]
  have hsnapshot : (Json.parse? dataText).bind Exchange.snapshot? = some snapshot := by
    have hentries : ((Json.parse? dataText).bind Exchange.snapshot?).map (·.entries) =
        some [("x", [⟨0, 1⟩, ⟨1, 2⟩])] := by decide +kernel
    obtain ⟨m, hm, hentries⟩ := Option.map_eq_some_iff.mp hentries
    rw [hm, ← NameMap.ofList_entries m, hentries]
  have hfailing : failing {} m.values (Registry.ofSnapshot snapshot) = ["a", "b"] := by decide +kernel
  have hdone : ((TransformSet.empty {}).addAll (Registry.ofSnapshot snapshot) m.values).2.2.map (·.length) =
      .done 2 := by decide +kernel
  have htarget : ∀ path ∈ some "out.json", t.Writable path := by
    rintro path ⟨⟩
    exact hwritable
  have hgoes : ((execute {} (.evaluate "m.xml" "x.json" (some "out.json") false)).run t).2.status ≠ some 101 ∧
      ((execute {} (.evaluate "m.xml" "x.json" (some "out.json") false)).run t).2.status ≠ none := by
    rw [run_evaluate htext hm hdata hsnapshot]
    obtain ⟨failures, hfailures, -⟩ := Attempt.of_map_eq_done hdone
    obtain ⟨s, r, hall⟩ : ∃ s r, (TransformSet.empty {}).addAll (Registry.ofSnapshot snapshot) m.values =
        (s, r, .done failures) := ⟨_, _, Prod.ext rfl (Prod.ext rfl hfailures)⟩
    obtain ⟨t', printed, hrun, -⟩ := run_deliver htarget failures (results s r false)
    simp only [hall, hrun]
    exact status_conclude_ne failures printed
  obtain ⟨failures, results, printed, -, hend, ⟨rfl, hfile⟩, hreported, hchecked, hnames, -, hresults⟩ :=
    check_agrees_with_evaluate htext hm hdata hsnapshot htarget (run_check htext hm) rfl hgoes.1 hgoes.2
  rw [hfailing] at hnames
  have hbroken : (compile ⟨"a", "x", "", "1 +"⟩ (Session.new {})).2 =
      .failed (.compile "expression: syntax error") :=
    Attempt.eq_failed_of_map (f := fun _ => ()) (by decide +kernel)
  refine ⟨t, _, results, failures, _, run_check htext hm, ?_, Prod.ext rfl hend, ?_, hnames,
    hreported _ List.mem_cons_self _ hbroken, ?_, hfile⟩
  · rw [ne_eq, hchecked]
    intro hall
    obtain ⟨u, hu⟩ := hall _ List.mem_cons_self
    rw [hbroken] at hu
    cases hu
  · rw [ne_eq, status_conclude]
    rintro rfl
    cases hnames
  · intro q
    have hvalues : m.values = [⟨"a", "x", "", "1 +"⟩, ⟨"b", "x", "", "$$ghost$$"⟩, ⟨"c", "x", "", "-value"⟩] := by
      decide +kernel
    have hwrites : writes ({} : Config).limits ⟨"c", "x", "", "-value"⟩ = ["c"] := by decide +kernel
    simp only [hresults, hnames, ← mem_writes_iff]
    simp [hvalues, hwrites]

end CommandLine

end DerivedSignal
