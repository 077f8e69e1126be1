import DerivedSignal.Proofs.IncrementalRun
import DerivedSignal.Proofs.ScratchRun

namespace DerivedSignal

open Transform

/-- Registers a signal and updates it. -/
def Transform.startOver (t : Transform Session) (r : Registry) :
    Transform Session × Registry × Attempt Nat :=
  (t.register r).1.update (t.register r).2

/-- Two passes have the same outcome and, if they succeed, leave the same registry and signals with the
same mark and variables. -/
structure EndAlike (result result' : Transform Session × Registry × Attempt Nat) : Prop where
  outcome : result.2.2 = result'.2.2
  registry : ∀ n, result'.2.2 = .done n → result.2.1 = result'.2.1
  mark : ∀ n, result'.2.2 = .done n → result.1.mark = result'.1.mark
  globals : ∀ n, result'.2.2 = .done n → result.1.evaluator.globals = result'.1.evaluator.globals

theorem endAlike_of_not_done {result result' : Transform Session × Registry × Attempt Nat}
    (h : result.2.2 = result'.2.2) (hn : ∀ n, result'.2.2 ≠ .done n) : EndAlike result result' :=
  ⟨h, fun n hd => absurd hd (hn n), fun n hd => absurd hd (hn n), fun n hd => absurd hd (hn n)⟩

theorem writeOutputs_replacing_congr {names : List String} (hn : names.Nodup) {r r' : Registry}
    (h : ∀ q, q ∉ names → r.find? q = r'.find? q) (p : Pass) :
    writeOutputs true p 0 names r = writeOutputs true p 0 names r' := by
  refine NameMap.ext_find? fun q => ?_
  by_cases hq : q ∈ names
  · obtain ⟨i, hi⟩ := List.mem_iff_getElem?.mp hq
    rw [find?_writeOutputs hn hi, find?_writeOutputs hn hi, writeOutput_replacing,
      writeOutput_replacing]
  · rw [find?_writeOutputs_of_not_mem hq, find?_writeOutputs_of_not_mem hq, h q hq]

/-- Replacing passes over the same inputs, on sessions that differ in their checkpoints only. -/
theorem endAlike_finish {t t' : Transform Session} (hsame : SameSignal t t') (hn : t.outputs.Nodup)
    {r r' : Registry} (hr : ∀ q, q ∉ t.outputs → r.find? q = r'.find? q)
    (apart : ∀ q ∈ t.inputs, q ∉ t.outputs) {linked : Series}
    (hl : r'.find? t.definition.linked = some linked) {s s' : Session} (hs : s.core = s'.core) :
    EndAlike
      ({ t with evaluator := (t.evaluate r FloatMath.negInfinity s).1 }.finish r true
        (t.evaluate r FloatMath.negInfinity s).2)
      ({ t' with evaluator := (t'.evaluate r' FloatMath.negInfinity s').1 }.finish r' true
        (t'.evaluate r' FloatMath.negInfinity s').2) := by
  have hfound : r.find? t.definition.linked = some linked := by
    rw [hr _ (apart _ List.mem_cons_self), hl]
  have hfound' : r'.find? t'.definition.linked = some linked := by rw [hsame.definition, hl]
  have hresolve : Alignment.resolve r' t'.slotted.channels =
      Alignment.resolve r t.slotted.channels := by
    rw [hsame.slotted]
    exact Alignment.resolve_congr fun q hq => (hr q (apart q (List.mem_cons_of_mem _ hq))).symm
  cases hc : Alignment.resolve r t.slotted.channels with
  | error e =>
    rw [evaluate_of_unresolved hfound hc, evaluate_of_unresolved hfound' (hresolve.trans hc)]
    exact endAlike_of_not_done rfl fun n hd => by cases hd
  | ok channels =>
    rw [evaluate_of_found hfound hc, evaluate_of_found hfound' (hresolve.trans hc),
      evaluateAll_congr hsame.shape hsame.definition]
    obtain ⟨hcore, houtcome⟩ := Session.evaluateAll_of_core_eq hs t channels
      (linked.after FloatMath.negInfinity)
    cases hrows : (t.evaluateAll channels s' (linked.after FloatMath.negInfinity)).2 with
    | abort why =>
      rw [houtcome, hrows]
      exact endAlike_of_not_done rfl fun n hd => by cases hd
    | failed e =>
      rw [houtcome, hrows]
      exact endAlike_of_not_done rfl fun n hd => by cases hd
    | done rows =>
      have hglobals := ((Session.core_eq_iff _ _).mp hcore).2.1
      rw [houtcome, hrows]
      simp only [Attempt.map, finish_done, hsame.outputs]
      refine ⟨rfl, fun n _ => ?_, fun n _ => rfl, fun n _ => hglobals⟩
      exact writeOutputs_replacing_congr hn hr ⟨rows, linked.bound⟩

namespace Lifecycle

variable {d : Definition} {start s : Session} {outside : Registry → Registry → Prop}
  {t fresh : Transform Session} {r : Registry} {created : List String}

/-- Whatever has happened, a reset leads to the variables of the freshly compiled signal. -/
theorem reset_eq (h : Lifecycle d start outside t r created)
    (hc : compile d start = (s, .done fresh)) {u : Session}
    (hu : Session.SameScript t.evaluator u) :
    Evaluator.reset u = ({ u with globals := fresh.evaluator.globals }, .done ()) := by
  obtain ⟨-, -, probed, -, -, -, -, -, hreset⟩ := (compiles_of_done hc).steps
  have hprobed := (Session.sameScript_reset probed).1
  rw [hreset] at hprobed
  exact Session.reset_congr hreset ((hprobed.trans (h.sameScript hc)).trans hu)

theorem startOver (h : Lifecycle d start outside t r created) (hn : (t.startOver r).2.2.Returns) :
    Lifecycle d start outside (t.startOver r).1 (t.startOver r).2.1 [] :=
  h.register.update rfl hn

/-- With the variables of the freshly compiled signal, registering and updating does what a rebuild
does. -/
theorem endAlike_startOver (h : Lifecycle d start outside t r created)
    (hc : compile d start = (s, .done fresh)) {r : Registry} {linked : Series}
    (hl : r.find? d.linked = some linked) (apart : ∀ q ∈ fresh.inputs, q ∉ fresh.outputs)
    {u : Session} (hu : Session.SameScript t.evaluator u)
    (hglobals : u.globals = fresh.evaluator.globals) :
    EndAlike (Transform.startOver { t with evaluator := u } r) (t.rebuild r) := by
  have hcompiles := compiles_of_done hc
  obtain rfl := hcompiles.definition
  have hsame := h.sameSignal hc
  have hreset := h.reset_eq hc (u := t.evaluator.checkpoint) ⟨rfl, rfl, rfl⟩
  have hfound : r.find? t.definition.linked = some linked := by rw [hsame.definition, hl]
  let registered : Transform Session := (Transform.register { t with evaluator := u } r).1
  have hregistered : SameSignal registered t := ⟨rfl, rfl, rfl⟩
  have hdistinct : registered.outputs.Nodup := hsame.outputs ▸ outputs_nodup hcompiles
  have happart : ∀ q ∈ registered.inputs, q ∉ registered.outputs := by
    have hinputs : registered.inputs = fresh.inputs := by
      simp only [inputs, ← hregistered.definition, ← hregistered.slotted, hsame.definition,
        hsame.slotted]
    rw [hinputs, ← hregistered.outputs, hsame.outputs]
    exact apart
  have hothers : ∀ q, q ∉ registered.outputs →
      (Transform.register { t with evaluator := u } r).2.find? q = r.find? q := by
    intro q hq
    rw [find?_register, if_neg fun hm => hq hm.1]
  have hcore : (Evaluator.checkpoint u).core =
      Session.core { t.evaluator.checkpoint with globals := fresh.evaluator.globals } :=
    (Session.core_eq_iff _ _).mpr ⟨hu.limits, hglobals, hu.preamble, hu.expression⟩
  rw [rebuild_of_reset hfound hreset]
  exact endAlike_finish hregistered hdistinct hothers happart
    (hregistered.definition ▸ hfound) hcore

end Lifecycle

/-- A rebuild does what a reset of the variables, registering and an update do. Without the reset it
does the same as long as the script has not changed its variables. -/
theorem rebuild_eq_reset_and_startOver {d : Definition} {limits : Limits} {s : Session}
    {outside : Registry → Registry → Prop} {t fresh : Transform Session} {r r₀ : Registry}
    {created : List String} {linked : Series}
    (hc : compile d (Session.new limits) = (s, .done fresh))
    (h : Lifecycle d (Session.new limits) outside t r₀ created)
    (hl : r.find? d.linked = some linked) (apart : ∀ q ∈ fresh.inputs, q ∉ fresh.outputs) :
    ∃ u, Evaluator.reset t.evaluator = (u, .done ()) ∧
      EndAlike (startOver { t with evaluator := u } r) (t.rebuild r) ∧
      (t.evaluator.globals = u.globals → EndAlike (t.startOver r) (t.rebuild r)) := by
  have hreset := h.reset_eq hc (u := t.evaluator) ⟨rfl, rfl, rfl⟩
  refine ⟨_, hreset, h.endAlike_startOver hc hl apart ⟨rfl, rfl, rfl⟩ rfl, ?_⟩
  intro hglobals
  exact h.endAlike_startOver hc hl apart ⟨rfl, rfl, rfl⟩ hglobals

/-- A counter that has counted two samples: with its variables reset it starts from one again. -/
theorem rebuild_eq_reset_and_startOver_counter :
    ∃ (s u : Session) (fresh t : Transform Session) (r r' : Registry),
      let d : Definition := ⟨"f", "x", "let n = 0;", "n += 1; n"⟩
      compile d (Session.new {}) = (s, .done fresh) ∧
      r.find? d.linked = some ⟨[⟨0, 1⟩, ⟨1, 1⟩], none⟩ ∧
      (∀ q ∈ fresh.inputs, q ∉ fresh.outputs) ∧
      Lifecycle d (Session.new {}) (fun _ _ => True) t r' [] ∧
      Evaluator.reset t.evaluator = (u, .done ()) ∧
      EndAlike (startOver { t with evaluator := u } r) (t.rebuild r) ∧
      (t.rebuild r).2.2 = .done 2 ∧ ((t.rebuild r).2.1.getD "f").points = [⟨0, 1⟩, ⟨1, 2⟩] := by
  let d : Definition := ⟨"f", "x", "let n = 0;", "n += 1; n"⟩
  let r : Registry := NameMap.empty.insert "x" ⟨[⟨0, 1⟩, ⟨1, 1⟩], none⟩
  obtain ⟨s, fresh, hc, apart, hfirst, hsecond, hpoints⟩ :
      ∃ s t, compile d (Session.new {}) = (s, .done t) ∧ (∀ q ∈ t.inputs, q ∉ t.outputs) ∧
        (t.startOver r).2.2 = .done 2 ∧ ((t.startOver r).1.rebuild r).2.2 = .done 2 ∧
        (((t.startOver r).1.rebuild r).2.1.getD "f").points = [⟨0, 1⟩, ⟨1, 2⟩] :=
    exists_compile_of_any (by decide +kernel)
  have hcompiled : Lifecycle d (Session.new {}) (fun _ _ => True) fresh r [] := .compiled r hc
  have hlife := hcompiled.startOver (by simp [hfirst])
  obtain ⟨u, hreset, hends, -⟩ := rebuild_eq_reset_and_startOver hc hlife (r := r) rfl apart
  exact ⟨s, u, fresh, _, r, _, hc, rfl, apart, hlife, hreset, hends, hsecond, hpoints⟩

/-- Registering alone does not start the counter over: it goes on to three and four. -/
theorem startOver_not_rebuild :
    ∃ (t : Transform Session) (r r' : Registry),
      let d : Definition := ⟨"f", "x", "let n = 0;", "n += 1; n"⟩
      Lifecycle d (Session.new {}) (fun _ _ => True) t r' [] ∧
      r.find? d.linked = some ⟨[⟨0, 1⟩, ⟨1, 1⟩], none⟩ ∧ (∀ q ∈ t.inputs, q ∉ t.outputs) ∧
      (t.rebuild r).2.2 = .done 2 ∧ ((t.rebuild r).2.1.getD "f").points = [⟨0, 1⟩, ⟨1, 2⟩] ∧
      ((t.startOver r).2.1.getD "f").points = [⟨0, 3⟩, ⟨1, 4⟩] ∧
      ¬ EndAlike (t.startOver r) (t.rebuild r) := by
  let d : Definition := ⟨"f", "x", "let n = 0;", "n += 1; n"⟩
  let r : Registry := NameMap.empty.insert "x" ⟨[⟨0, 1⟩, ⟨1, 1⟩], none⟩
  obtain ⟨s, fresh, hc, hfirst, apart, hsecond, hpoints, hpoints'⟩ :
      ∃ s t, compile d (Session.new {}) = (s, .done t) ∧
        (t.startOver r).2.2 = .done 2 ∧
        (∀ q ∈ (t.startOver r).1.inputs, q ∉ (t.startOver r).1.outputs) ∧
        ((t.startOver r).1.rebuild r).2.2 = .done 2 ∧
        (((t.startOver r).1.rebuild r).2.1.getD "f").points = [⟨0, 1⟩, ⟨1, 2⟩] ∧
        (((t.startOver r).1.startOver r).2.1.getD "f").points = [⟨0, 3⟩, ⟨1, 4⟩] :=
    exists_compile_of_any (by decide +kernel)
  have hcompiled : Lifecycle d (Session.new {}) (fun _ _ => True) fresh r [] := .compiled r hc
  have hlife := hcompiled.startOver (by simp [hfirst])
  refine ⟨_, r, _, hlife, rfl, apart, hsecond, hpoints, hpoints', fun h => ?_⟩
  have hsame := h.registry 2 hsecond
  rw [hsame, hpoints] at hpoints'
  exact absurd hpoints' (by decide +kernel)

end DerivedSignal
