import DerivedSignal.Proofs.IntegerDivision
import DerivedSignal.Proofs.WidenedIntegers

namespace DerivedSignal

namespace Script

/-- A value with its double in the place of an integer. -/
def Value.widened : Value → Value
  | .int n => .float (FloatMath.ofInt n)
  | v => v

theorem Value.extent_widened (v : Value) : v.widened.extent = v.extent := by
  cases v <;> rfl

/-- An outcome with its double in the place of an integer. -/
def Outcome.widened : Outcome → Outcome
  | .done v => .done v.widened
  | o => o

/-- The name of the function of two arguments that gives the greater or the lesser one. -/
def extremumName (greatest : Bool) : String := if greatest then "max" else "min"

/-- The calls with a function of their own that gives something else than the function on doubles gives. -/
inductive Departs : String → List Value → Prop
  | least : Departs "abs" [.int leastInteger]
  | nan (greatest : Bool) (a : ℤ) {y : Float} (h : y.isNaN = true) :
      Departs (extremumName greatest) [.int a, .float y]

/-- The calls that compare texts. -/
inductive ComparesTexts : String → List Value → Prop
  | strings (greatest : Bool) (a b : String) : ComparesTexts (extremumName greatest) [.string a, .string b]
  | chars (greatest : Bool) (a b : Char) : ComparesTexts (extremumName greatest) [.char a, .char b]

/-- The integers among some values have 64 bits. -/
def InRange (vs : List Value) : Prop := ∀ n, Value.int n ∈ vs → inIntegerRange? n = some n

namespace HostMath

/-- Whether there is a function depends on how many numbers it is given, not on which. -/
theorem takes_length (name : String) (xs : List Float) : takes name xs.length = (onNumbers? name xs).isSome := by
  unfold takes
  match xs with
  | [] => rfl
  | [a] =>
    change (onNumbers? name [0]).isSome = _
    unfold onNumbers?
    cases unary? name <;> cases predicate? name <;> rfl
  | [a, b] =>
    change (onNumbers? name [0, 0]).isSome = _
    unfold onNumbers?
    cases binary? name <;> rfl
  | [a, b, c] =>
    change (onNumbers? name [0, 0, 0]).isSome = _
    unfold onNumbers?
    cases ternary? name <;> rfl
  | [a, b, c, d] =>
    change (onNumbers? name [0, 0, 0, 0]).isSome = _
    unfold onNumbers?
    cases quaternary? name <;> rfl
  | [a, b, c, d, e] =>
    change (onNumbers? name [0, 0, 0, 0, 0]).isSome = _
    by_cases h : name = "map_range" <;> simp [onNumbers?, h]
  | a :: b :: c :: d :: e :: f :: rest => rfl

/-- The functions on doubles give doubles and truth values, or are outside their domain. -/
theorem onNumbers?_cases {name : String} {xs : List Float} {o : Outcome} (h : onNumbers? name xs = some o) :
    (∃ x, o = .done (.float x)) ∨ (∃ b, o = .done (.bool b)) ∨ o = .abort := by
  unfold onNumbers? at h
  split at h
  next => split at h <;> cases h <;> exact .inl ⟨_, rfl⟩
  next =>
    split at h <;> cases h
    · exact .inl ⟨_, rfl⟩
    · exact .inr (.inl ⟨_, rfl⟩)
  next =>
    obtain ⟨f, -, rfl⟩ := Option.map_eq_some_iff.mp h
    exact .inl ⟨_, rfl⟩
  next =>
    obtain ⟨f, -, rfl⟩ := Option.map_eq_some_iff.mp h
    exact .inl ⟨_, rfl⟩
  next =>
    obtain ⟨f, -, rfl⟩ := Option.map_eq_some_iff.mp h
    split
    next => exact .inl ⟨_, rfl⟩
    next => exact .inr (.inr rfl)
  next =>
    split at h <;> cases h
    exact .inl ⟨_, rfl⟩
  next => cases h

theorem widened_of_onNumbers? {name : String} {xs : List Float} {o : Outcome} (h : onNumbers? name xs = some o) :
    o.widened = o := by
  obtain ⟨x, rfl⟩ | ⟨b, rfl⟩ | rfl := onNumbers?_cases h <;> rfl

/-- What becomes an outcome on doubles is, unless it is outside the domain, a value without extent. -/
theorem done_of_widened {name : String} {xs : List Float} {o : Outcome} (h : onNumbers? name xs = some o.widened)
    (habort : o ≠ .abort) : ∃ v, o = .done v ∧ v.extent = ⟨0, 0, 0⟩ := by
  have hcases := onNumbers?_cases h
  cases o with
  | done v =>
    refine ⟨v, rfl, (v.extent_widened).symm.trans ?_⟩
    obtain ⟨x, hx⟩ | ⟨b, hb⟩ | ho := hcases
    · rw [Outcome.done.inj hx]
      rfl
    · rw [Outcome.done.inj hb]
      rfl
    · cases ho
  | changed _ _ => simp [Outcome.widened] at hcases
  | failed _ => simp [Outcome.widened] at hcases
  | abort => exact absurd rfl habort

theorem number_eq_ok {v : Value} {x : Float} (h : number v = .ok x) :
    (∃ n, v = .int n ∧ x = FloatMath.ofInt n) ∨ v = .float x := by
  unfold number at h
  cases v <;> simp [Value.toFloat?] at h
  · exact .inl ⟨_, rfl, h.symm⟩
  · exact .inr (by rw [h])

/-- What is no number is what is complained about. -/
theorem numbers_eq_error {vs : List Value} {f : Fault} (h : numbers vs = .error f) :
    ∃ v ∈ vs, v.toFloat? = none ∧ f = .ofText ("expected a number, got '" ++ v.resultName ++ "'") := by
  induction vs with
  | nil => cases h
  | cons v vs ih =>
    rw [numbers] at h
    split at h
    next f' hv =>
      cases h
      unfold number at hv
      split at hv <;> cases hv
      next hnone => exact ⟨v, List.mem_cons_self, hnone, rfl⟩
    next x hx =>
      cases hvs : numbers vs with
      | ok ys => simp [hvs, Except.map] at h
      | error f' =>
        rw [hvs] at h
        cases h
        obtain ⟨w, hw, hnone, hf⟩ := ih hvs
        exact ⟨w, List.mem_cons_of_mem v hw, hnone, hf⟩

end HostMath

namespace Builtin

/-- Without NaN in the second place the greater and the lesser of two numbers are those that pass over NaN. -/
theorem extreme_eq (greatest : Bool) {x y : Float} (hy : y.isNaN = false) :
    extreme greatest x y = if greatest then FloatMath.maximum x y else FloatMath.minimum x y := by
  unfold extreme FloatMath.maximum FloatMath.minimum
  cases hx : x.isNaN with
  | true =>
    have hleft : ¬ x ≤ y := FloatOrder.not_le_of_isNaN (.inl hx)
    have hright : ¬ y ≤ x := FloatOrder.not_le_of_isNaN (.inr hx)
    rw [if_neg hleft, if_neg hright, if_pos rfl, if_pos rfl]
  | false =>
    have hleft := FloatOrder.le_iff_not_lt hx hy
    have hright := FloatOrder.le_iff_not_lt hy hx
    simp only [hleft, hright, ite_not, gt_iff_lt, if_neg Bool.false_ne_true]

theorem natAbs_lt {n : ℤ} (h : inIntegerRange? n = some n) : n.natAbs < 2 ^ 64 := by
  unfold inIntegerRange? leastInteger greatestInteger at h
  split at h
  next => omega
  next => cases h

/-- What does not depart is no integer with NaN behind it. -/
theorem extremum?_widened {greatest : Bool} {a b : Value} {x y : Float} {o : Outcome}
    (hrange : InRange [a, b]) (hx : HostMath.number a = .ok x) (hy : HostMath.number b = .ok y)
    (hnumber : (∃ n, a = .int n) → y.isNaN = false) (h : extremum? greatest a b = some o) :
    o.widened = .done (.float (if greatest then FloatMath.maximum x y else FloatMath.minimum x y)) := by
  rcases HostMath.number_eq_ok hx with ⟨m, rfl, rfl⟩ | rfl <;>
    rcases HostMath.number_eq_ok hy with ⟨n, rfl, rfl⟩ | rfl <;> cases h
  · have hm := natAbs_lt (hrange m List.mem_cons_self)
    have hn := natAbs_lt (hrange n (List.mem_cons_of_mem _ List.mem_cons_self))
    cases greatest with
    | true => exact congrArg (fun z => Outcome.done (.float z)) (FloatOrder.ofInt_max hm hn)
    | false => exact congrArg (fun z => Outcome.done (.float z)) (FloatOrder.ofInt_min hm hn)
  · exact congrArg (fun z => Outcome.done (.float z)) (extreme_eq greatest (hnumber ⟨m, rfl⟩))
  · have hn := natAbs_lt (hrange n (List.mem_cons_of_mem _ List.mem_cons_self))
    exact congrArg (fun z => Outcome.done (.float z)) (extreme_eq greatest (FloatOrder.isNaN_ofInt hn))

/-- The mathematical functions of which integers or texts have their own. -/
inductive Particular : String → List Value → Outcome → Prop
  | abs (a : ℤ) : Particular "abs" [.int a] (checked a.natAbs ("Negation overflow: -" ++ toString a))
  | sign (a : ℤ) : Particular "sign" [.int a] (.done (.int a.sign))
  | extremum (greatest : Bool) {a b : Value} {o : Outcome} (h : extremum? greatest a b = some o) :
      Particular (extremumName greatest) [a, b] o

theorem particular_of_takes {name : String} {vs : List Value} {o : Outcome}
    (htakes : HostMath.takes name vs.length = true) (h : particular? name vs = some o) : Particular name vs o := by
  unfold particular? at h
  split at h
  next a =>
    cases h
    exact .abs a
  next a =>
    cases h
    exact .sign a
  next => exact .extremum false h
  next => exact .extremum true h
  -- The others are no mathematical functions, or take another number of arguments.
  all_goals first | exact absurd htakes Bool.false_ne_true | cases h

theorem inIntegerRange?_natAbs {n : ℤ} (h : inIntegerRange? n = some n) (hleast : n ≠ leastInteger) :
    inIntegerRange? n.natAbs = some (n.natAbs : ℤ) := by
  unfold inIntegerRange? leastInteger greatestInteger at *
  split at h
  next => exact if_pos (by omega)
  next => cases h

/-- A function of their own gives for numbers what the function on doubles gives, unless it departs. -/
theorem onNumbers?_of_particular {name : String} {vs : List Value} {xs : List Float} {o : Outcome}
    (h : Particular name vs o) (hxs : HostMath.numbers vs = .ok xs) (hrange : InRange vs)
    (hdeparts : ¬ Departs name vs) : HostMath.onNumbers? name xs = some o.widened := by
  cases h with
  | abs a =>
    cases hxs
    have ha := hrange a List.mem_cons_self
    have hleast : a ≠ leastInteger := by
      rintro rfl
      exact hdeparts .least
    rw [checked, inIntegerRange?_natAbs ha hleast]
    exact congrArg (fun z => some (Outcome.done (.float z))) (FloatOrder.ofInt_natAbs (natAbs_lt ha)).symm
  | sign a =>
    cases hxs
    have ha := natAbs_lt (hrange a List.mem_cons_self)
    exact congrArg (fun z => some (Outcome.done (.float z))) (FloatOrder.ofInt_sign ha).symm
  | @extremum greatest a b o h =>
    obtain ⟨x, ys, hx, hys, rfl⟩ := HostMath.numbers_cons hxs
    obtain ⟨y, zs, hy, hzs, rfl⟩ := HostMath.numbers_cons hys
    cases hzs
    have hnumber : (∃ n, a = .int n) → y.isNaN = false := by
      rintro ⟨m, rfl⟩
      rcases HostMath.number_eq_ok hy with ⟨n, rfl, rfl⟩ | rfl
      · exact FloatOrder.isNaN_ofInt (natAbs_lt (hrange n (List.mem_cons_of_mem _ List.mem_cons_self)))
      · rw [Bool.eq_false_iff]
        exact fun hnan => hdeparts (.nan greatest m hnan)
    rw [extremum?_widened hrange hx hy hnumber h]
    cases greatest <;> rfl

/-- Numbers that do not depart: whichever function takes them, it gives what the function on doubles gives. -/
theorem call?_of_numbers {name : String} {vs : List Value} {xs : List Float}
    (htakes : HostMath.takes name vs.length = true) (hxs : HostMath.numbers vs = .ok xs) (hrange : InRange vs)
    (hdeparts : ¬ Departs name vs) :
    ∃ o, call? name vs = some o ∧ HostMath.onNumbers? name xs = some o.widened := by
  unfold call?
  cases hparticular : particular? name vs with
  | some o => exact ⟨o, rfl, onNumbers?_of_particular (particular_of_takes htakes hparticular) hxs hrange hdeparts⟩
  | none =>
    have hsome : (HostMath.onNumbers? name xs).isSome = true := by
      rw [← HostMath.takes_length, HostMath.length_numbers hxs, htakes]
    obtain ⟨o, ho⟩ := Option.isSome_iff_exists.mp hsome
    refine ⟨o, ?_, ?_⟩
    · simp only [HostMath.call?, htakes, hxs, ho, if_true]
    · rw [HostMath.widened_of_onNumbers? ho, ho]

/-- What is no number is refused, unless texts are compared. -/
theorem call?_of_error {name : String} {vs : List Value} {f : Fault}
    (htakes : HostMath.takes name vs.length = true) (hf : HostMath.numbers vs = .error f)
    (htexts : ¬ ComparesTexts name vs) : call? name vs = some (.failed f) := by
  unfold call?
  cases hparticular : particular? name vs with
  | none => simp only [HostMath.call?, htakes, hf, if_true]
  | some o =>
    cases particular_of_takes htakes hparticular with
    | abs a => cases hf
    | sign a => cases hf
    | @extremum greatest a b o h =>
      unfold extremum? at h
      split at h
      next => cases hf
      next => cases hf
      next => cases hf
      next => exact absurd (.strings greatest _ _) htexts
      next => exact absurd (.chars greatest _ _) htexts
      next => cases h

theorem extreme_nan (greatest : Bool) (x : Float) {y : Float} (hy : y.isNaN = true) : extreme greatest x y = y := by
  have hleft : ¬ x ≤ y := FloatOrder.not_le_of_isNaN (.inr hy)
  have hright : ¬ y ≤ x := FloatOrder.not_le_of_isNaN (.inl hy)
  simp only [extreme, hleft, hright, if_false, ite_self]

theorem call?_extremum_nan (greatest : Bool) (a : ℤ) {y : Float} (hy : y.isNaN = true) :
    call? (extremumName greatest) [.int a, .float y] = some (.done (.float y)) := by
  have hextreme := extreme_nan greatest (FloatMath.ofInt a) hy
  cases greatest with
  | true => exact congrArg (fun z => some (Outcome.done (.float z))) hextreme
  | false => exact congrArg (fun z => some (Outcome.done (.float z))) hextreme

end Builtin

section Calls

variable {c : Setting} {name : String} {vs : List Value}

/-- How a call ends, wherever it stands: called by its name, or as a method of its first argument. -/
structure CallEnds (c : Setting) (name : String) (vs : List Value) (ending : Position → Except Interrupt Value) :
    Prop where
  function : ∀ fuel es p m m' m'', tick c p m = (.ok (), m') → Operands fuel c es m' vs m'' →
    eval (fuel + 1) c (.call name es p) m = (ending p, m'')
  method : ∀ fuel t v arguments p rest m, vs = v :: arguments → t.read m = (.ok v, m) →
    follow (fuel + 1) c t (.method name arguments p :: rest) m =
      match ending p with
      | .ok w => follow fuel c (.loose w) rest m
      | .error e => (.error e, m)

theorem function?_of_names (hnames : ∀ f ∈ c.functions, f.name ≠ name) (count : ℕ) : c.function? name count = none := by
  refine List.find?_eq_none.mpr fun f hf => ?_
  simp [hnames f hf]

/-- A call that no function of the script takes ends as the built-in function does. -/
theorem callEnds_of_builtin {ending : Position → Except Interrupt Value}
    (hnames : ∀ f ∈ c.functions, f.name ≠ name)
    (h : ∀ first p m, (∀ t ∈ first, ∃ v rest, vs = v :: rest ∧ t.read m = (.ok v, m)) →
      callBuiltin c name vs first p m = (ending p, m)) : CallEnds c name vs ending where
  function fuel es p m m' m'' htick hoperands := by
    obtain ⟨first, heval, hfirst⟩ := eval_call_front (f := name) htick hoperands
    cases fuel with
    | zero => exact absurd hoperands not_operands_zero
    | succ fuel =>
      rw [heval, invoke, function?_of_names hnames]
      exact h first p m'' hfirst
  method fuel t v arguments p rest m hvs hread := by
    subst hvs
    have hcall : callBuiltin c name (v :: arguments) (some t) p m = (ending p, m) :=
      h (some t) p m fun t' ht' => ⟨v, arguments, rfl, by cases ht'; exact hread⟩
    rw [follow]
    simp only [function?_of_names hnames]
    cases hending : ending p with
    | ok w =>
      rw [hending] at hcall
      rw [Ends.bind_of_ok hread, Ends.bind_of_ok hcall]
      rfl
    | error e =>
      rw [hending] at hcall
      rw [Ends.bind_of_ok hread]
      exact Ends.bind_of_error hcall

theorem callEnds_of_done {w : Value} (hnames : ∀ f ∈ c.functions, f.name ≠ name)
    (hcall : Builtin.call? name vs = some (.done w)) (hw : w.extent = ⟨0, 0, 0⟩)
    (hvs : ∀ v ∈ vs.head?, v.extent = ⟨0, 0, 0⟩) : CallEnds c name vs fun _ => .ok w := by
  refine callEnds_of_builtin hnames fun first p m hfirst => callBuiltin_of_done hcall hw fun t ht => ?_
  obtain ⟨v, rest, rfl, hread⟩ := hfirst t ht
  exact ⟨v, hread, hvs v rfl⟩

theorem callEnds_of_failed {f : Fault} (hnames : ∀ f ∈ c.functions, f.name ≠ name)
    (hcall : Builtin.call? name vs = some (.failed f)) :
    CallEnds c name vs fun p => .error (.failure ⟨f, p, []⟩) := by
  refine callEnds_of_builtin hnames fun first p m _ => ?_
  unfold callBuiltin
  rw [hcall]
  rfl

theorem extent_of_number {v : Value} {x : Float} (h : HostMath.number v = .ok x) : v.extent = ⟨0, 0, 0⟩ := by
  rcases HostMath.number_eq_ok h with ⟨n, rfl, rfl⟩ | rfl <;> rfl

theorem extent_head {xs : List Float} (hxs : HostMath.numbers vs = .ok xs) : ∀ v ∈ vs.head?, v.extent = ⟨0, 0, 0⟩ := by
  cases vs with
  | nil => exact fun v hv => by cases hv
  | cons w rest =>
    obtain ⟨x, ys, hx, -, -⟩ := HostMath.numbers_cons hxs
    rintro v ⟨⟩
    exact extent_of_number hx

/-- Numbers that do not depart: the call gives the number or truth value of the function on doubles. -/
theorem callEnds_of_numbers {xs : List Float} (hnames : ∀ f ∈ c.functions, f.name ≠ name)
    (htakes : HostMath.takes name vs.length = true) (hrange : InRange vs) (hxs : HostMath.numbers vs = .ok xs)
    (hdeparts : ¬ Departs name vs) (hdomain : ¬ (name = "rate_limit" ∧ OutOfDomain vs)) :
    ∃ v, HostMath.onNumbers? name xs = some (.done v.widened) ∧ CallEnds c name vs fun _ => .ok v := by
  obtain ⟨o, hcall, hnumbers⟩ := Builtin.call?_of_numbers htakes hxs hrange hdeparts
  have habort : o ≠ .abort := by
    rintro rfl
    exact hdomain (Builtin.call?_eq_abort.mp hcall)
  obtain ⟨v, rfl, hv⟩ := HostMath.done_of_widened hnumbers habort
  exact ⟨v, hnumbers, callEnds_of_done hnames hcall hv (extent_head hxs)⟩

/-- A call that departs: there is no magnitude of the least integer, and behind an integer NaN is not passed over. -/
theorem callEnds_of_departs (hnames : ∀ f ∈ c.functions, f.name ≠ name) (h : Departs name vs) :
    (∃ a y, vs = [.int a, .float y] ∧ y.isNaN = true ∧ CallEnds c name vs fun _ => .ok (.float y)) ∨
      vs = [.int leastInteger] ∧ CallEnds c name vs fun p =>
        .error (.failure ⟨.arithmetic "Negation overflow: --9223372036854775808", p, []⟩) := by
  cases h with
  | least => exact .inr ⟨rfl, callEnds_of_failed hnames rfl⟩
  | @nan greatest a y hy =>
    have hcall := Builtin.call?_extremum_nan greatest a hy
    exact .inl ⟨a, y, rfl, hy, callEnds_of_done hnames hcall rfl fun v hv => by cases hv; rfl⟩

/-- The mathematical functions do not tell integers from doubles: whatever the arguments are, a call gives what the
function on doubles gives for the widened ones, but for the magnitude of the least integer, which fails, and the
greater or lesser of an integer and NaN, which is NaN. A call with an argument that is no number fails and names
its type, unless it is for the greater or lesser of two texts, which is a text. -/
theorem host_functions_widen (hnames : ∀ f ∈ c.functions, f.name ≠ name)
    (htakes : HostMath.takes name vs.length = true) (hrange : InRange vs) :
    (∀ xs, HostMath.numbers vs = .ok xs → ¬ Departs name vs → ¬ (name = "rate_limit" ∧ OutOfDomain vs) →
      ∃ v, HostMath.onNumbers? name xs = some (.done v.widened) ∧ CallEnds c name vs fun _ => .ok v) ∧
    (Departs name vs →
      (∃ a y, vs = [.int a, .float y] ∧ y.isNaN = true ∧ CallEnds c name vs fun _ => .ok (.float y)) ∨
        vs = [.int leastInteger] ∧ CallEnds c name vs fun p =>
          .error (.failure ⟨.arithmetic "Negation overflow: --9223372036854775808", p, []⟩)) ∧
    (∀ f, HostMath.numbers vs = .error f → ¬ ComparesTexts name vs →
      (∃ v ∈ vs, v.toFloat? = none ∧ f = .ofText ("expected a number, got '" ++ v.resultName ++ "'")) ∧
        CallEnds c name vs fun p => .error (.failure ⟨f, p, []⟩)) ∧
    (ComparesTexts name vs → ∃ w ∈ vs, Builtin.call? name vs = some (.done w)) := by
  refine ⟨fun xs hxs hdeparts hdomain => callEnds_of_numbers hnames htakes hrange hxs hdeparts hdomain,
    callEnds_of_departs hnames, fun f hf htexts => ⟨HostMath.numbers_eq_error hf, ?_⟩, fun htexts => ?_⟩
  · exact callEnds_of_failed hnames (Builtin.call?_of_error htakes hf htexts)
  · cases htexts with
    | strings greatest a b =>
      refine ⟨.string (if decide (a < b) = greatest then b else a), ?_, by cases greatest <;> rfl⟩
      split <;> simp
    | chars greatest a b =>
      refine ⟨.char (if decide (a < b) = greatest then b else a), ?_, by cases greatest <;> rfl⟩
      split <;> simp

/-- A double between integers, and between an integer and a text. -/
theorem host_functions_widen_clamp :
    let c : Setting := ⟨{}, [], 0⟩
    let m (steps : ℕ) : Machine := ⟨[⟨"value", .float 12.5, false⟩], steps⟩
    let call (low : Value) : Expr :=
      .call "clamp" [.name "value" ⟨1, 7⟩, .literal low ⟨1, 14⟩, .literal (.int 10) ⟨1, 17⟩] ⟨1, 1⟩
    (∃ v, v.widened = .float 10 ∧ eval 6 c (call (.int 0)) (m 0) = (.ok v, m 1)) ∧
    eval 6 c (call (.string "0")) (m 0) =
      (.error (.failure ⟨.ofText "expected a number, got 'string'", ⟨1, 1⟩, []⟩), m 1) := by
  intro c m call
  have hoperands (low : Value) : Operands 5 c
      [.name "value" ⟨1, 7⟩, .literal low ⟨1, 14⟩, .literal (.int 10) ⟨1, 17⟩] (m 1) [.float 12.5, low, .int 10] (m 1) :=
    @Operands.name _ _ [] [] ⟨"value", .float 12.5, false⟩ _ _ _ _ _ rfl rfl
  have hnames : ∀ f ∈ c.functions, f.name ≠ "clamp" := fun f hf => by cases hf
  have hrange (low : Value) (hlow : ∀ n, low = .int n → inIntegerRange? n = some n) :
      InRange [.float 12.5, low, .int 10] := by
    intro n hn
    rcases List.mem_cons.mp hn with h | hn
    · cases h
    rcases List.mem_cons.mp hn with h | hn
    · exact hlow n h.symm
    · cases List.mem_singleton.mp hn
      rfl
  have hdeparts {vs : List Value} (hvs : vs.length = 3) : ¬ Departs "clamp" vs := by
    intro h
    generalize "clamp" = name at h
    cases h <;> cases hvs
  have htexts {vs : List Value} (hvs : vs.length = 3) : ¬ ComparesTexts "clamp" vs := by
    intro h
    generalize "clamp" = name at h
    cases h <;> cases hvs
  refine ⟨?_, ?_⟩
  · have hcall := @host_functions_widen c "clamp" [.float 12.5, .int 0, .int 10] hnames rfl
      (hrange _ fun n hn => by cases hn; rfl)
    obtain ⟨v, hv, hends⟩ := hcall.1 _ rfl (hdeparts rfl) fun h => absurd h.1 (by decide)
    have hten : HostMath.clamp 12.5 (FloatMath.ofInt 0) (FloatMath.ofInt 10) = 10 := by decide +kernel
    refine ⟨v, ?_, hends.function _ _ _ _ (m 1) _ rfl (hoperands _)⟩
    rw [← hten]
    exact (Outcome.done.inj (Option.some.inj hv)).symm
  · have hcall := @host_functions_widen c "clamp" [.float 12.5, .string "0", .int 10] hnames rfl
      (hrange _ fun n hn => by cases hn)
    obtain ⟨-, hends⟩ := hcall.2.2.1 _ rfl (htexts rfl)
    exact hends.function _ _ _ _ (m 1) _ rfl (hoperands _)

/-- The magnitude of the least integer, an integer and NaN, and two texts. -/
theorem host_functions_depart :
    readingOf "abs(-9223372036854775807 - 1)" =
        .failed (.script "Negation overflow: --9223372036854775808 (line 1, position 1)") ∧
      readingOf "abs(-9223372036854775808.0)" = .done (.number 9223372036854775808) ∧
      readingOf "max(1, 0.0 / 0.0)" = .done (.number FloatMath.nan) ∧
      FloatMath.maximum (FloatMath.ofInt 1) FloatMath.nan = 1 ∧
      readingOf "min(\"b\", \"a\")" = .done (.unsupported "string") := by
  decide +kernel

end Calls

end Script

end DerivedSignal
