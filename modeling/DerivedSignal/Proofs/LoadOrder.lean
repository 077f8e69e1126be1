import DerivedSignal.Proofs.Restart

namespace DerivedSignal

open Transform

/-- The registries hold the same under each of the names. -/
def AgreeOn (names : List String) (r r' : Registry) : Prop :=
  ∀ q ∈ names, r.find? q = r'.find? q

namespace AgreeOn

variable {names : List String} {r r' r'' : Registry}

theorem refl (names : List String) (r : Registry) : AgreeOn names r r := fun _ _ => rfl

theorem symm (h : AgreeOn names r r') : AgreeOn names r' r := fun q hq => (h q hq).symm

theorem trans (h : AgreeOn names r r') (h' : AgreeOn names r' r'') : AgreeOn names r r'' :=
  fun q hq => (h q hq).trans (h' q hq)

theorem mono {more : List String} (h : AgreeOn more r r') (hsub : ∀ q ∈ names, q ∈ more) :
    AgreeOn names r r' := fun q hq => h q (hsub q hq)

end AgreeOn

section FirstPass

variable {t : Transform Session} {r r' : Registry}

theorem find?_writeOutputs_congr {q : String} (h : r.find? q = r'.find? q) (replace : Bool) (p : Pass)
    (index : Nat) (names : List String) :
    (writeOutputs replace p index names r).find? q =
      (writeOutputs replace p index names r').find? q := by
  induction names generalizing index r r' with
  | nil => exact h
  | cons name names ih =>
    refine ih ?_ (index + 1)
    rw [NameMap.find?_insert, NameMap.find?_insert]
    split
    next hq =>
      subst hq
      simp only [Registry.getD, h]
    next => exact h

theorem evaluate_congr {u : Transform Session} (hsame : SameSignal t u)
    (h : AgreeOn t.inputs r r') (mark : Float) (s : Session) :
    t.evaluate r mark s = u.evaluate r' mark s := by
  have hl : r.find? t.definition.linked = r'.find? u.definition.linked := by
    rw [hsame.definition]
    exact h _ List.mem_cons_self
  have hc : Alignment.resolve r t.slotted.channels = Alignment.resolve r' u.slotted.channels := by
    rw [hsame.slotted]
    exact Alignment.resolve_congr fun q hq => h q (List.mem_cons_of_mem _ hq)
  have hall : t.evaluateAll = u.evaluateAll := by
    funext channels s ps
    exact evaluateAll_congr hsame.shape.symm hsame.definition.symm channels s ps
  simp only [evaluate, hl, hc, hall]

theorem startOver_eq (t : Transform Session) (r : Registry) :
    t.startOver r =
      let evaluated := t.evaluate (t.register r).2 FloatMath.negInfinity
        (Evaluator.checkpoint t.evaluator)
      { (t.register r).1 with evaluator := evaluated.1 }.finish (t.register r).2 true evaluated.2 := by
  have hsame : SameSignal t (t.register r).1 := ⟨rfl, rfl, rfl⟩
  rw [evaluate_congr hsame (.refl t.inputs (t.register r).2)]
  rfl

theorem startOver_eq_done {t' : Transform Session} {u : Registry} {n : Nat}
    (h : t.startOver r = (t', u, .done n)) :
    ∃ s found, t.evaluate (t.register r).2 FloatMath.negInfinity (Evaluator.checkpoint t.evaluator) =
        (s, .done found) ∧
      u = match found with
        | some p => writeOutputs true p 0 t.outputs (t.register r).2
        | none => (t.register r).2 := by
  rw [startOver_eq] at h
  generalize t.evaluate (t.register r).2 FloatMath.negInfinity
    (Evaluator.checkpoint t.evaluator) = evaluated at h ⊢
  obtain ⟨s, outcome⟩ := evaluated
  cases outcome with
  | abort why => cases h
  | failed e => cases h
  | done found =>
    refine ⟨s, found, rfl, ?_⟩
    cases found <;> cases h <;> rfl

theorem startOver_frame {t' : Transform Session} {u : Registry} {n : Nat}
    (h : t.startOver r = (t', u, .done n)) {q : String} (hq : q ∉ t.outputs) :
    u.find? q = r.find? q := by
  have hregistered : (t.register r).2.find? q = r.find? q := by
    rw [find?_register, if_neg fun hm => hq hm.1]
  obtain ⟨s, found, -, hu⟩ := startOver_eq_done h
  rw [hu]
  cases found with
  | none => exact hregistered
  | some p => exact (find?_writeOutputs_of_not_mem hq).trans hregistered

end FirstPass

variable {limits : Limits} {d e : Definition} {names : List String} {r r' u u' : Registry}

namespace Definition

/-- The series that a definition reads, if it compiles. -/
def reads (limits : Limits) (d : Definition) : List String :=
  match compiled? d (Session.new limits) with
  | some t => t.inputs
  | none => []

/-- The series that a definition writes, if it compiles. -/
def writes (limits : Limits) (d : Definition) : List String :=
  match compiled? d (Session.new limits) with
  | some t => t.outputs
  | none => []

/-- The registry after the first pass of a definition, if it compiles and the pass succeeds. -/
def load (limits : Limits) (d : Definition) (r : Registry) : Option Registry :=
  match compiled? d (Session.new limits) with
  | some t =>
    match t.startOver r with
    | (_, r, .done _) => some r
    | _ => none
  | none => none

/-- The registry after the first passes of several definitions. -/
def loadAll (limits : Limits) : List Definition → Registry → Option Registry
  | [], r => some r
  | d :: ds, r => (load limits d r).bind (loadAll limits ds)

/-- One of two definitions writes a series that the other reads or writes, and the series is one of those
that matter. -/
def Clash (limits : Limits) (names : List String) (d e : Definition) : Prop :=
  ∃ q ∈ names, q ∈ writes limits d ∧ (q ∈ reads limits e ∨ q ∈ writes limits e) ∨
    q ∈ writes limits e ∧ (q ∈ reads limits d ∨ q ∈ writes limits d)

instance (limits : Limits) (names : List String) (d e : Definition) :
    Decidable (Clash limits names d e) :=
  inferInstanceAs (Decidable (∃ q ∈ names, _))

end Definition

open Definition

theorem load_eq_some_iff : load limits d r = some u ↔
    ∃ t t' n, compiled? d (Session.new limits) = some t ∧ t.startOver r = (t', u, .done n) := by
  unfold load
  cases hc : compiled? d (Session.new limits) with
  | none => simp
  | some t =>
    simp only [Option.some.injEq]
    constructor
    · intro h
      split at h
      next t' u' n hs =>
        cases h
        exact ⟨t, t', n, rfl, hs⟩
      next => cases h
    · rintro ⟨t₁, t', n, rfl, hs⟩
      rw [hs]

end DerivedSignal
