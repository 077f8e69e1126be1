import DerivedSignal.Number.FloatMath
import Mathlib

namespace DerivedSignal

namespace FloatOrder

open Float.Model Float.Model.UnpackedFloat

/-- Where a double stands: its class from negative infinity upwards, then exponent and mantissa,
which count downwards for negative numbers. NaN stands nowhere. -/
def rank : UnpackedFloat → Option (ℤ ×ₗ ℤ ×ₗ ℤ)
  | .notANumber => none
  | .infinity .negative => some (toLex (-2, toLex (0, 0)))
  | .finite .negative m e _ => some (toLex (-1, toLex (-e, -m)))
  | .zero _ => some (toLex (0, toLex (0, 0)))
  | .finite .positive m e _ => some (toLex (1, toLex (e, m)))
  | .infinity .positive => some (toLex (2, toLex (0, 0)))

theorem compare_then_eq (e f : ℤ) (m n : ℕ) :
    (compare e f).then (compare m n) =
      if e < f ∨ e = f ∧ m < n then .lt else if e = f ∧ m = n then .eq else .gt := by
  rcases lt_trichotomy e f with h | h | h
  · simp [compare_lt_iff_lt.mpr h, h]
  · subst h
    rcases lt_trichotomy m n with h | h | h
    · simp [compare_lt_iff_lt.mpr h, h]
    · simp [h]
    · simp [compare_gt_iff_gt.mpr h, h.not_gt, h.ne']
  · simp [compare_gt_iff_gt.mpr h, h.not_gt, h.ne']

/-- How two places compare. -/
def order (p q : ℤ ×ₗ ℤ ×ₗ ℤ) : Ordering := if p < q then .lt else if p = q then .eq else .gt

/-- Two doubles compare as the places where they stand. -/
theorem compare_eq (a b : UnpackedFloat) :
    a.compare b = (rank a).bind fun p => (rank b).map fun q => order p q := by
  rcases a with (_ | _) | _ | _ | ⟨_ | _, m, e, _⟩ <;>
    rcases b with (_ | _) | _ | _ | ⟨_ | _, n, f, _⟩
  case finite.negative.finite.negative =>
    simp only [UnpackedFloat.compare, rank, compare_then_eq, order, Option.bind_some,
      Option.map_some, Option.some.injEq, Prod.Lex.toLex_lt_toLex, lt_irrefl, false_or, true_and,
      EmbeddingLike.apply_eq_iff_eq, Prod.mk.injEq]
    grind [Ordering.swap]
  case finite.positive.finite.positive =>
    simp only [UnpackedFloat.compare, rank, compare_then_eq, order, Option.bind_some,
      Option.map_some, Option.some.injEq, Prod.Lex.toLex_lt_toLex, lt_irrefl, false_or, true_and,
      EmbeddingLike.apply_eq_iff_eq, Prod.mk.injEq]
    grind
  all_goals rfl

/-- The place of a double. -/
def place (x : Float) : Option (ℤ ×ₗ ℤ ×ₗ ℤ) := rank x.toModel.unpack

theorem compare_model_eq (x y : Float) :
    x.toModel.unpack.compare y.toModel.unpack =
      (place x).bind fun p => (place y).map fun q => order p q :=
  compare_eq _ _

theorem le_iff (x y : Float) : x ≤ y ↔ ∃ p q, place x = some p ∧ place y = some q ∧ p ≤ q := by
  have h : x ≤ y ↔ (x.toModel.unpack.compare y.toModel.unpack).any (·.isLE) = true :=
    decide_eq_true_iff
  rw [h, compare_model_eq]
  cases place x with
  | none => simp
  | some p =>
    cases place y with
    | none => simp
    | some q =>
      rcases lt_trichotomy p q with h | h | h
      · simp [order, h, h.le]
      · simp [order, h]
      · simp [order, h.not_gt, h.ne', h.not_ge]

theorem lt_iff (x y : Float) : x < y ↔ ∃ p q, place x = some p ∧ place y = some q ∧ p < q := by
  have h : x < y ↔ (x.toModel.unpack.compare y.toModel.unpack == some .lt) = true :=
    decide_eq_true_iff
  rw [h, compare_model_eq]
  cases place x with
  | none => simp
  | some p =>
    cases place y with
    | none => simp
    | some q =>
      rcases lt_trichotomy p q with h | h | h
      · simp [order, h]
      · simp [order, h]
      · simp [order, h.not_gt, h.ne']

theorem le_trans {x y z : Float} (h : x ≤ y) (h' : y ≤ z) : x ≤ z := by
  obtain ⟨p, q, hp, hq, hpq⟩ := (le_iff x y).mp h
  obtain ⟨q', r, hq', hr, hqr⟩ := (le_iff y z).mp h'
  cases hq.symm.trans hq'
  exact (le_iff x z).mpr ⟨p, r, hp, hr, hpq.trans hqr⟩

theorem lt_of_lt_of_le {x y z : Float} (h : x < y) (h' : y ≤ z) : x < z := by
  obtain ⟨p, q, hp, hq, hpq⟩ := (lt_iff x y).mp h
  obtain ⟨q', r, hq', hr, hqr⟩ := (le_iff y z).mp h'
  cases hq.symm.trans hq'
  exact (lt_iff x z).mpr ⟨p, r, hp, hr, hpq.trans_le hqr⟩

theorem lt_of_le_of_lt {x y z : Float} (h : x ≤ y) (h' : y < z) : x < z := by
  obtain ⟨p, q, hp, hq, hpq⟩ := (le_iff x y).mp h
  obtain ⟨q', r, hq', hr, hqr⟩ := (lt_iff y z).mp h'
  cases hq.symm.trans hq'
  exact (lt_iff x z).mpr ⟨p, r, hp, hr, hpq.trans_lt hqr⟩

theorem le_of_lt {x y : Float} (h : x < y) : x ≤ y := by
  obtain ⟨p, q, hp, hq, hpq⟩ := (lt_iff x y).mp h
  exact (le_iff x y).mpr ⟨p, q, hp, hq, hpq.le⟩

theorem not_le_of_lt {x y : Float} (h : x < y) : ¬ y ≤ x := by
  intro h'
  obtain ⟨p, q, hp, hq, hpq⟩ := (lt_iff x y).mp h
  obtain ⟨q', p', hq', hp', hqp⟩ := (le_iff y x).mp h'
  cases hq.symm.trans hq'
  cases hp.symm.trans hp'
  exact absurd hpq hqp.not_gt

/-- A double that compares with itself is a number. -/
def IsNumber (x : Float) : Prop := x ≤ x

theorem isNumber_right {x y : Float} (h : x ≤ y) : IsNumber y := by
  obtain ⟨p, q, hp, hq, hpq⟩ := (le_iff x y).mp h
  exact (le_iff y y).mpr ⟨q, q, hq, hq, le_refl q⟩

theorem isNumber_left {x y : Float} (h : x ≤ y) : IsNumber x := by
  obtain ⟨p, q, hp, hq, hpq⟩ := (le_iff x y).mp h
  exact (le_iff x x).mpr ⟨p, p, hp, hp, le_refl p⟩

theorem lt_or_le {x y : Float} (hx : IsNumber x) (hy : IsNumber y) : x < y ∨ y ≤ x := by
  obtain ⟨p, _, hp, _, _⟩ := (le_iff x x).mp hx
  obtain ⟨q, _, hq, _, _⟩ := (le_iff y y).mp hy
  rcases lt_or_ge p q with h | h
  · exact Or.inl ((lt_iff x y).mpr ⟨p, q, hp, hq, h⟩)
  · exact Or.inr ((le_iff y x).mpr ⟨q, p, hq, hp, h⟩)

theorem isNaN_iff {x : Float} : x.isNaN = true ↔ place x = none := by
  have hmodel : x.isNaN = x.toModel.unpack.isNaN := rfl
  rw [hmodel, place]
  rcases x.toModel.unpack with (_ | _) | _ | _ | ⟨_ | _, _, _, _⟩ <;> simp [UnpackedFloat.isNaN, rank]

theorem isNumber_iff {x : Float} : IsNumber x ↔ x.isNaN = false := by
  rw [IsNumber, le_iff, Bool.eq_false_iff, ne_eq, isNaN_iff]
  cases place x with
  | none => simp
  | some p => simp

/-- Nothing compares with NaN. -/
theorem not_le_of_isNaN {x y : Float} (h : x.isNaN = true ∨ y.isNaN = true) : ¬ x ≤ y := by
  intro hle
  rcases h with hx | hy
  · exact Bool.false_ne_true ((isNumber_iff.mp (isNumber_left hle)).symm.trans hx)
  · exact Bool.false_ne_true ((isNumber_iff.mp (isNumber_right hle)).symm.trans hy)

theorem le_iff_not_lt {x y : Float} (hx : x.isNaN = false) (hy : y.isNaN = false) : x ≤ y ↔ ¬ y < x :=
  ⟨fun h hlt => not_le_of_lt hlt h, fun h => (lt_or_le (isNumber_iff.mpr hy) (isNumber_iff.mpr hx)).resolve_left h⟩

theorem place_negInfinity : place FloatMath.negInfinity = some (toLex (-2, toLex (0, 0))) := by
  have h : FloatMath.negInfinity.toModel.unpack = .infinity .negative := by rfl
  rw [place, h, rank]

theorem isNumber_negInfinity : IsNumber FloatMath.negInfinity :=
  (le_iff _ _).mpr ⟨_, _, place_negInfinity, place_negInfinity, le_refl _⟩

theorem negInfinity_lt_of_isFinite {x : Float} (h : x.isFinite = true) :
    FloatMath.negInfinity < x := by
  have hf : x.toModel.unpack.isFinite = true := h
  obtain ⟨q, hq, hlt⟩ : ∃ q, place x = some q ∧ toLex (-2, toLex (0, 0)) < q := by
    unfold place
    revert hf
    rcases x.toModel.unpack with _ | _ | _ | ⟨_ | _, m, e, _⟩ <;>
      simp [UnpackedFloat.isFinite, rank, Prod.Lex.toLex_lt_toLex]
  exact (lt_iff _ _).mpr ⟨_, q, place_negInfinity, hq, hlt⟩

theorem isNumber_of_isFinite {x : Float} (h : x.isFinite = true) : IsNumber x :=
  isNumber_right (le_of_lt (negInfinity_lt_of_isFinite h))

end FloatOrder

end DerivedSignal
