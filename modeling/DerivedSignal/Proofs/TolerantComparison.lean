import DerivedSignal.Proofs.FloatSubtraction
import DerivedSignal.Script.Builtin

namespace DerivedSignal

namespace FloatOrder

open Float.Model Float.Model.UnpackedFloat FloatRounding

/-- What is not below zero. -/
inductive NotNegative : UnpackedFloat → Prop
  | infinity : NotNegative (.infinity .positive)
  | zero (s : Sign) : NotNegative (.zero s)
  | finite {m : ℕ} {e : ℤ} (hm : 0 < m) : NotNegative (.finite .positive m e hm)

theorem zero_le_iff (x : Float) : 0 ≤ x ↔ NotNegative x.toModel.unpack := by
  have hzero : place 0 = some (toLex (0, toLex (0, 0))) := place_zero
  have hiff : 0 ≤ x ↔ ∃ p, rank x.toModel.unpack = some p ∧ toLex (0, toLex (0, 0)) ≤ p := by
    rw [le_iff, hzero]
    simp [place]
  rw [hiff]
  constructor
  · rintro ⟨p, hp, hle⟩
    generalize x.toModel.unpack = u at hp ⊢
    rcases u with (_ | _) | _ | s | ⟨_ | _, m, e, hm⟩ <;> cases hp
    · exact absurd hle (by decide)
    · exact .infinity
    · exact .zero s
    · rw [Prod.Lex.toLex_le_toLex] at hle
      exact absurd hle (by simp)
    · exact .finite hm
  · intro h
    generalize x.toModel.unpack = u at h ⊢
    cases h with
    | infinity => exact ⟨_, rfl, by decide⟩
    | zero s => exact ⟨_, rfl, le_rfl⟩
    | finite hm => exact ⟨_, rfl, by simp [Prod.Lex.toLex_le_toLex]⟩

/-- A positive number does not become negative when it is stored, whatever its mantissa and exponent are. -/
theorem notNegative_stored {m : ℕ} {e : ℤ} (hm : 0 < m) : NotNegative (stored (.finite .positive m e hm)) := by
  have hcomponents : ∀ (b : BitVec 11) (k : BitVec 52), b ≠ -1#11 →
      NotNegative (UnpackedFloat.unpack Format.binary64 (packComponents Format.binary64 .positive b k)) := by
    intro b k hb
    simp only [UnpackedFloat.unpack, unpackMantissa_packComponents, unpackExponent_packComponents,
      FloatRounding.unpackSign_packComponents, sign_toBitVec, hb, if_false]
    split_ifs
    · exact .zero _
    · exact .finite _
    · exact .finite _
  have hbits : 2 ^ Format.binary64.exponentBits = 2 ^ 11 := rfl
  unfold stored
  simp only [UnpackedFloat.pack, biased_eq]
  split_ifs with hlarge
  · exact .infinity
  · exact hcomponents _ _ (bitVec_ne_of_toNat (by omega) (show (e + 1075).toNat ≠ 2047 by omega))
  · exact hcomponents _ _ (by decide)

theorem sub_nonneg {x y : Float} (hx : x.isFinite = true) (hy : y.isFinite = true) (h : x ≤ y) : 0 ≤ y - x := by
  obtain ⟨z, hz⟩ := multiple_of_isFinite hx
  obtain ⟨w, hw⟩ := multiple_of_isFinite hy
  obtain ⟨p, q, hp, hq, hpq⟩ := (le_iff x y).mp h
  cases hp.symm.trans (place_of_multiple hz)
  cases hq.symm.trans (place_of_multiple hw)
  have hle : z ≤ w := hz.le hw hpq
  exact (le_iff _ _).mpr ⟨_, _, place_zero, place_sub hw hz, nearestPlace_mono (by omega)⟩

/-- A double between zero and infinity. -/
def IsPositive (x : Float) : Prop := ∃ m e hm, x.toModel.unpack = .finite .positive m e hm

theorem div_nonneg {x y : Float} (hx : 0 ≤ x) (hy : IsPositive y) : 0 ≤ x / y := by
  obtain ⟨m, e, hm, hy⟩ := hy
  have hdiv : (x / y).toModel.unpack =
      stored (UnpackedFloat.div Format.binary64 x.toModel.unpack y.toModel.unpack) := rfl
  rw [zero_le_iff] at hx ⊢
  rw [hdiv, hy]
  generalize x.toModel.unpack = u at hx
  cases hx with
  | infinity =>
    rw [UnpackedFloat.div, stored_infinity]
    exact .infinity
  | zero s =>
    rw [UnpackedFloat.div, stored_zero]
    exact .zero _
  | finite hn =>
    have hsign : Sign.positive / Sign.positive = Sign.positive := rfl
    simp only [UnpackedFloat.div, hsign, roundWithAccuracy]
    split_ifs
    · exact .zero _
    · exact notNegative_stored _

theorem isPositive_one : IsPositive 1 := ⟨2 ^ 52, -52, by norm_num, by rfl⟩

/-- A double that is not zero has a magnitude. -/
theorem isPositive_abs {x : Float} (hx : x.isFinite = true) (hne : ∀ s, x.toModel.unpack ≠ .zero s) :
    IsPositive x.abs := by
  obtain ⟨z, hz⟩ := multiple_of_isFinite hx
  have habs : x.abs.toModel.unpack = stored x.toModel.unpack.abs := rfl
  unfold IsPositive
  rw [habs]
  generalize x.toModel.unpack = u at hz hne ⊢
  cases hz with
  | zero s => exact absurd rfl (hne s)
  | finite s hm hc he => exact ⟨_, _, hm, stored_finite .positive hm hc he⟩

theorem mul_eq_zero_of_zero {x y : Float} (hx : x.isFinite = true) (hy : y.isFinite = true) {s : Sign}
    (h : x.toModel.unpack = .zero s ∨ y.toModel.unpack = .zero s) : (x * y == 0) = true := by
  have hmul : (x * y).toModel.unpack =
      stored (UnpackedFloat.mul Format.binary64 x.toModel.unpack y.toModel.unpack) := rfl
  have hbeq : (x * y == 0) = UnpackedFloat.beq (x * y).toModel.unpack (.zero .positive) := rfl
  obtain ⟨z, hz⟩ := multiple_of_isFinite hx
  obtain ⟨w, hw⟩ := multiple_of_isFinite hy
  rw [hbeq, hmul]
  generalize x.toModel.unpack = u at hz h
  generalize y.toModel.unpack = v at hw h
  rcases h with rfl | rfl
  · cases hw <;> rw [UnpackedFloat.mul, stored_zero] <;> rfl
  · cases hz <;> rw [UnpackedFloat.mul, stored_zero] <;> rfl

end FloatOrder

namespace Script.Builtin

open FloatOrder

/-- Whether a double is not above another one but by a rounding error. -/
def atMost (x y : Float) : Bool := excess y x > -epsilon

theorem atMost_of_le {x y : Float} (hx : x.isFinite = true) (hy : y.isFinite = true) (h : x ≤ y) :
    atMost x y = true := by
  have hscale : IsPositive (if y * x == 0 then 1 else FloatMath.maximum y.abs x.abs) := by
    split
    next => exact isPositive_one
    next hne =>
      have hzero (s) := mt (mul_eq_zero_of_zero (s := s) hy hx) hne
      unfold FloatMath.maximum
      split_ifs
      · exact isPositive_abs hx fun s hs => hzero s (.inr hs)
      · exact isPositive_abs hx fun s hs => hzero s (.inr hs)
      · exact isPositive_abs hy fun s hs => hzero s (.inl hs)
  have hexcess : 0 ≤ excess y x := div_nonneg (sub_nonneg hx hy h) hscale
  have hepsilon : -epsilon < 0 := of_decide_eq_true (by decide +kernel)
  exact decide_eq_true (lt_of_lt_of_le hepsilon hexcess)

end Script.Builtin

end DerivedSignal
