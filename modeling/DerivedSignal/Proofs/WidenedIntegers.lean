import DerivedSignal.Proofs.FloatSubtraction
import DerivedSignal.Script.Builtin

namespace DerivedSignal

namespace FloatRounding

open Float.Model Float.Model.UnpackedFloat

/-- An integer as a multiple of the least double. -/
def units (a : ℤ) : ℤ := a * 2 ^ 1074

theorem units_pos {a : ℤ} : 0 < units a ↔ 0 < a := mul_pos_iff_of_pos_right (by positivity)

theorem units_mono {a b : ℤ} (h : a ≤ b) : units a ≤ units b := Int.mul_le_mul_of_nonneg_right h (by positivity)

theorem units_neg {a : ℤ} : units a < 0 ↔ a < 0 := by
  rw [← not_le, ← not_le]
  exact not_congr (mul_nonneg_iff_of_pos_right (by positivity))

theorem units_apply (s : Sign) (n : ℕ) : units (s.apply n) = s.apply (n * 2 ^ 1074 : ℕ) := by
  rw [units, Nat.cast_mul, apply_mul, Nat.cast_pow, Nat.cast_ofNat]

theorem nearestPlace_pos_iff {z : ℤ} : 0 < nearestPlace z ↔ 0 < z := by
  have hzero : nearestPlace 0 = 0 := rfl
  constructor
  · intro h
    by_contra hz
    exact absurd (nearestPlace_mono (not_lt.mp hz)) (hzero ▸ h.not_ge)
  · intro h
    rw [nearestPlace, if_pos h]
    exact magnitude_pos _ _

theorem nearestPlace_neg_iff {z : ℤ} : nearestPlace z < 0 ↔ z < 0 := by
  have hzero : nearestPlace 0 = 0 := rfl
  constructor
  · intro h
    by_contra hz
    exact absurd (nearestPlace_mono (not_lt.mp hz)) (hzero ▸ h.not_ge)
  · intro h
    rw [nearestPlace, if_neg (by omega), if_pos h]
    exact neg_lt_zero.mpr (magnitude_pos _ _)

section Bits

variable {n : ℕ}

theorem twoTo_eq (k : ℕ) : twoTo k = 2 ^ k := rfl

theorem binary_roundShift_eq (n k : ℕ) : Binary.roundShift n k = roundShift n k := by
  unfold Binary.roundShift roundShift
  simp only [twoTo_eq, gt_iff_lt, eq_comm]

/-- The digits of an integer that a double keeps, in units that are small enough. -/
theorem kept_eq (hn : 0 < n) {j : ℕ} (hj : 52 ≤ j) :
    (if (0 : ℤ) ≥ n.log2 - 52 then n * 2 ^ (0 - ((n.log2 : ℤ) - 52)).toNat
      else Binary.roundShift n ((n.log2 : ℤ) - 52 - 0).toNat) = roundShift (n * 2 ^ j) (excess (n * 2 ^ j)) := by
  rw [excess, log2_mul_two_pow hn.ne', binary_roundShift_eq]
  split
  next h =>
    obtain ⟨k, hk⟩ : ∃ k, n.log2 + k = 52 := ⟨52 - n.log2, by omega⟩
    have hlog : (0 - ((n.log2 : ℤ) - 52)).toNat = k := by omega
    have hpow : n * 2 ^ j = n * 2 ^ k * 2 ^ (n.log2 + j - 52) := by
      rw [mul_assoc, ← pow_add]
      congr 2
      omega
    have hround := roundShift_mul (n * 2 ^ k) 0 (n.log2 + j - 52)
    rw [Nat.zero_add, roundShift_zero] at hround
    rw [hlog, hpow, hround]
  next h =>
    have hlog : ((n.log2 : ℤ) - 52 - 0).toNat = n.log2 - 52 := by omega
    have hsum : n.log2 + j - 52 = n.log2 - 52 + j := by omega
    rw [hlog, hsum, roundShift_mul]

theorem excess_units (hn : 0 < n) : excess (n * 2 ^ 1074) = n.log2 + 1022 := by
  rw [excess, log2_mul_two_pow hn.ne']
  omega

theorem nearestExponent_of_small (hn : 0 < n) (hsmall : n < 2 ^ 64) : nearestExponent (n * 2 ^ 1074) ≤ 971 := by
  have hlog : n.log2 < 64 := (Nat.log2_lt hn.ne').mpr hsmall
  unfold nearestExponent
  rw [excess_units hn]
  split <;> omega

/-- The bits of the double nearest to an integer. -/
theorem magnitudeBits_eq (hn : 0 < n) (hfits : nearestExponent (n * 2 ^ 1074) ≤ 971) :
    Binary.magnitudeBits n 0 =
        (nearestExponent (n * 2 ^ 1074) + 1074).toNat * 2 ^ 52 + nearestMantissa (n * 2 ^ 1074) ∧
      2 ^ 52 ≤ nearestMantissa (n * 2 ^ 1074) := by
  have hkept := kept_eq hn (show 52 ≤ 1074 by norm_num)
  have hle := roundShift_excess_le (n * 2 ^ 1074)
  have hexcess := excess_units hn
  have hge := le_roundShift_excess (show excess (n * 2 ^ 1074) ≠ 0 by omega)
  have hleast : max (0 + (n.log2 : ℤ) - 52) (-1074) = n.log2 - 52 := by omega
  unfold Binary.magnitudeBits
  unfold nearestExponent at hfits ⊢
  unfold nearestMantissa
  simp only [hn.ne', if_false, hleast, twoTo_eq, hkept]
  rw [hexcess] at hle hge hfits ⊢
  generalize roundShift (n * 2 ^ 1074) (n.log2 + 1022) = kept at *
  by_cases hcarry : kept = 2 ^ 53
  · simp only [if_pos hcarry] at hfits ⊢
    split <;> omega
  · simp only [if_neg hcarry] at hfits ⊢
    split <;> omega

end Bits

theorem toNat_packComponents (s : Sign) {e m : ℕ} (he : e < 2 ^ 11) (hm : m < 2 ^ 52) :
    (packComponents Format.binary64 s (BitVec.ofNat 11 e) (BitVec.ofNat 52 m)).toNat =
      s.toBitVec.toNat * 2 ^ 63 + e * 2 ^ 52 + m := by
  have hexponent : (BitVec.ofNat 11 e).toNat = e := Nat.mod_eq_of_lt he
  have hmantissa : (BitVec.ofNat 52 m).toNat = m := Nat.mod_eq_of_lt hm
  change (s.toBitVec ++ BitVec.ofNat 11 e ++ BitVec.ofNat 52 m).toNat = _
  rw [BitVec.toNat_append, BitVec.toNat_append, hexponent, hmantissa, ← Nat.shiftLeft_add_eq_or_of_lt he,
    ← Nat.shiftLeft_add_eq_or_of_lt hm, Nat.shiftLeft_eq, Nat.shiftLeft_eq]
  ring

/-- The bits of a double that has all its digits. The first of them adds one to the exponent. -/
theorem pack_eq_ofNat {m : ℕ} {e : ℤ} (s : Sign) (hm : 0 < m) (hlow : 2 ^ 52 ≤ m) (hhigh : m < 2 ^ 53)
    (hleast : -1074 ≤ e) (hmost : e ≤ 971) : UnpackedFloat.pack Format.binary64 (.finite s m e hm) =
      BitVec.ofNat 64 (s.toBitVec.toNat * 2 ^ 63 + ((e + 1074).toNat * 2 ^ 52 + m)) := by
  have hmantissa : BitVec.ofNat 52 m = BitVec.ofNat 52 (m - 2 ^ 52) := BitVec.eq_of_toNat_eq (by
    rw [BitVec.toNat_ofNat, BitVec.toNat_ofNat]
    omega)
  have hpack : UnpackedFloat.pack Format.binary64 (.finite s m e hm) =
      packComponents Format.binary64 s (BitVec.ofNat 11 (e + 1075).toNat) (BitVec.ofNat 52 (m - 2 ^ 52)) :=
    (pack_normal s hm hlow hhigh hmost).trans
      (congrArg (packComponents Format.binary64 s (BitVec.ofNat 11 (e + 1075).toNat)) hmantissa)
  have hsign : s.toBitVec.toNat < 2 := s.toBitVec.isLt
  refine BitVec.eq_of_toNat_eq ?_
  rw [hpack, toNat_packComponents s (by omega) (by omega)]
  refine Eq.trans ?_ (BitVec.toNat_ofNat _ 64).symm
  omega

end FloatRounding

namespace FloatOrder

open Float.Model Float.Model.UnpackedFloat FloatRounding

theorem eq_of_unpack {x y : Float} (h : x.toModel.unpack = y.toModel.unpack) : x = y :=
  Float.toBits_inj.mp (UInt64.toBitVec_inj.mp ((unpack_inj_of_valid x.toModel.valid y.toModel.valid).mp h))

theorem unpack_ofBits_pack (u : UnpackedFloat) :
    (Float.ofBits (UInt64.ofBitVec (UnpackedFloat.pack Format.binary64 u))).toModel.unpack = stored (stored u) := rfl

theorem eq_of_rank {u v : UnpackedFloat} {p : ℤ ×ₗ ℤ ×ₗ ℤ} (hu : rank u = some p) (hv : rank v = some p)
    (hp : p ≠ 0) : u = v := by
  have hzero : (0 : ℤ ×ₗ ℤ ×ₗ ℤ) = toLex (0, toLex (0, 0)) := rfl
  rw [hzero] at hp
  rcases u with (_ | _) | _ | _ | ⟨_ | _, m, e, hm⟩ <;>
    rcases v with (_ | _) | _ | _ | ⟨_ | _, n, f, hn⟩ <;> simp only [rank, Option.some.injEq, reduceCtorEq] at hu hv <;>
    subst hu <;> simp_all

/-- A double is the only one at its place, unless it is a zero. -/
theorem eq_of_place {x y : Float} {p : ℤ ×ₗ ℤ ×ₗ ℤ} (hx : place x = some p) (hy : place y = some p) (hp : p ≠ 0) :
    x = y :=
  eq_of_unpack (eq_of_rank hx hy hp)

section Widened

variable {n : ℕ} {a b : ℤ}

theorem ofInt_eq_ofBits (s : Sign) (hn : 0 < n) : FloatMath.ofInt (s.apply n) =
    Float.ofBits (UInt64.ofBitVec (BitVec.ofNat 64 (s.toBitVec.toNat * 2 ^ 63 + Binary.magnitudeBits n 0))) := by
  have hbits : (if s.apply n < 0 then twoTo 63 + Binary.magnitudeBits (s.apply n).natAbs 0
      else Binary.magnitudeBits (s.apply n).natAbs 0) = s.toBitVec.toNat * 2 ^ 63 + Binary.magnitudeBits n 0 := by
    cases s with
    | positive =>
      rw [Sign.apply, if_neg (by omega), Int.natAbs_natCast]
      exact (Nat.zero_add _).symm
    | negative =>
      rw [Sign.apply, if_pos (by omega), Int.natAbs_neg, Int.natAbs_natCast]
      rfl
  rw [← hbits, FloatMath.ofInt, Binary.toFloat]
  simp only [decide_eq_true_eq]
  rfl

/-- The double of a positive or a negative integer. -/
theorem unpack_ofInt (s : Sign) (hn : 0 < n) (hmost : nearestExponent (n * 2 ^ 1074) ≤ 971) : ∃ h,
    (FloatMath.ofInt (s.apply n)).toModel.unpack =
      .finite s (nearestMantissa (n * 2 ^ 1074)) (nearestExponent (n * 2 ^ 1074)) h := by
  obtain ⟨hbits, hlow⟩ := magnitudeBits_eq hn hmost
  have hcanonical := canonical_nearest (n * 2 ^ 1074)
  have hm : 0 < nearestMantissa (n * 2 ^ 1074) := by omega
  have hpack := pack_eq_ofNat s hm hlow hcanonical.mantissa hcanonical.least hmost
  refine ⟨hm, ?_⟩
  rw [ofInt_eq_ofBits s hn, hbits, ← hpack, unpack_ofBits_pack, stored_finite s hm hcanonical hmost,
    stored_finite s hm hcanonical hmost]

theorem exists_apply (a : ℤ) : ∃ s : Sign, a = s.apply a.natAbs := by
  rcases Int.natAbs_eq a with h | h
  · exact ⟨.positive, h⟩
  · exact ⟨.negative, h⟩

theorem place_ofInt (ha : a.natAbs < 2 ^ 64) : place (FloatMath.ofInt a) = some (nearestPlace (units a)) := by
  by_cases hzero : a = 0
  · rw [hzero, units, zero_mul]
    exact place_zero
  · obtain ⟨s, hs⟩ := exists_apply a
    have hn : 0 < a.natAbs := Int.natAbs_pos.mpr hzero
    have hmost := nearestExponent_of_small hn ha
    obtain ⟨hm, hunpack⟩ := unpack_ofInt s hn hmost
    have hunits : units a = _ := (congrArg units hs).trans (units_apply s a.natAbs)
    have hpos : 0 < a.natAbs * 2 ^ 1074 := by positivity
    rw [hunits, nearestPlace_apply hpos, ← rank_stored s hm (canonical_nearest _),
      stored_finite s hm (canonical_nearest _) hmost, ← hunpack, ← hs, place]

theorem isNaN_ofInt (ha : a.natAbs < 2 ^ 64) : (FloatMath.ofInt a).isNaN = false := by
  rw [Bool.eq_false_iff, ne_eq, isNaN_iff, place_ofInt ha]
  exact Option.some_ne_none _

/-- Widening keeps the order; integers that are too close together become the same double. -/
theorem ofInt_mono (ha : a.natAbs < 2 ^ 64) (hb : b.natAbs < 2 ^ 64) (h : a ≤ b) :
    FloatMath.ofInt a < FloatMath.ofInt b ∨ FloatMath.ofInt a = FloatMath.ofInt b := by
  rcases (nearestPlace_mono (units_mono h)).lt_or_eq with hlt | heq
  · exact .inl ((lt_iff _ _).mpr ⟨_, _, place_ofInt ha, place_ofInt hb, hlt⟩)
  · by_cases hzero : nearestPlace (units a) = 0
    · -- Only zero stands where zero does.
      have hunits {z : ℤ} (hz : nearestPlace (units z) = 0) : z = 0 := by
        rcases lt_trichotomy z 0 with hneg | rfl | hpos
        · exact absurd hz (nearestPlace_neg_iff.mpr (units_neg.mpr hneg)).ne
        · rfl
        · exact absurd hz (nearestPlace_pos_iff.mpr (units_pos.mpr hpos)).ne'
      rw [hunits (z := a) hzero, hunits (z := b) (heq ▸ hzero)]
      exact .inr rfl
    · exact .inr (eq_of_place (place_ofInt ha) (heq ▸ place_ofInt hb) hzero)

theorem not_ofInt_lt (ha : a.natAbs < 2 ^ 64) (hb : b.natAbs < 2 ^ 64) (h : a ≤ b) :
    ¬ FloatMath.ofInt b < FloatMath.ofInt a := by
  intro hlt
  obtain ⟨p, q, hp, hq, hpq⟩ := (lt_iff _ _).mp hlt
  cases (place_ofInt hb).symm.trans hp
  cases (place_ofInt ha).symm.trans hq
  exact absurd (nearestPlace_mono (units_mono h)) hpq.not_ge

/-- The lesser of two integers becomes the lesser double. -/
theorem ofInt_min (ha : a.natAbs < 2 ^ 64) (hb : b.natAbs < 2 ^ 64) :
    FloatMath.ofInt (min a b) = FloatMath.minimum (FloatMath.ofInt a) (FloatMath.ofInt b) := by
  rw [FloatMath.minimum, isNaN_ofInt ha, if_neg Bool.false_ne_true]
  rcases le_total a b with h | h
  · rw [min_eq_left h, if_neg (not_ofInt_lt ha hb h)]
  · rw [min_eq_right h]
    rcases ofInt_mono hb ha h with hlt | heq
    · rw [if_pos hlt]
    · rw [heq, ite_self]

/-- The greater of two integers becomes the greater double. -/
theorem ofInt_max (ha : a.natAbs < 2 ^ 64) (hb : b.natAbs < 2 ^ 64) :
    FloatMath.ofInt (max a b) = FloatMath.maximum (FloatMath.ofInt a) (FloatMath.ofInt b) := by
  rw [FloatMath.maximum, isNaN_ofInt ha, if_neg Bool.false_ne_true]
  rcases le_total b a with h | h
  · rw [max_eq_left h, if_neg (not_ofInt_lt hb ha h)]
  · rw [max_eq_right h]
    rcases ofInt_mono ha hb h with hlt | heq
    · rw [if_pos hlt]
    · rw [heq, ite_self]

theorem ofInt_pos_iff (ha : a.natAbs < 2 ^ 64) : 0 < FloatMath.ofInt a ↔ 0 < a := by
  rw [lt_iff, place_zero, place_ofInt ha, ← units_pos, ← nearestPlace_pos_iff]
  simp [show nearestPlace 0 = 0 from rfl]

theorem ofInt_neg_iff (ha : a.natAbs < 2 ^ 64) : FloatMath.ofInt a < 0 ↔ a < 0 := by
  rw [lt_iff, place_zero, place_ofInt ha, ← units_neg, ← nearestPlace_neg_iff]
  simp [show nearestPlace 0 = 0 from rfl]

/-- The sign of an integer is that of its double. -/
theorem ofInt_sign (ha : a.natAbs < 2 ^ 64) :
    FloatMath.ofInt a.sign = Script.HostMath.sign (FloatMath.ofInt a) := by
  rw [Script.HostMath.sign]
  simp only [gt_iff_lt, ofInt_pos_iff ha, ofInt_neg_iff ha]
  rcases lt_trichotomy a 0 with h | rfl | h
  · rw [if_neg (by omega), if_pos h, Int.sign_eq_neg_one_of_neg h]
    rfl
  · rfl
  · rw [if_pos h, Int.sign_eq_one_of_pos h]
    rfl

/-- The magnitude of an integer is that of its double. -/
theorem ofInt_natAbs (ha : a.natAbs < 2 ^ 64) : FloatMath.ofInt a.natAbs = (FloatMath.ofInt a).abs := by
  by_cases hzero : a = 0
  · rw [hzero]
    rfl
  · obtain ⟨s, hs⟩ := exists_apply a
    have hn : 0 < a.natAbs := Int.natAbs_pos.mpr hzero
    have hmost := nearestExponent_of_small hn ha
    obtain ⟨hm, hunpack⟩ := unpack_ofInt s hn hmost
    obtain ⟨hm', hunpack'⟩ := unpack_ofInt .positive hn hmost
    have habs : (FloatMath.ofInt a).abs.toModel.unpack = stored (FloatMath.ofInt a).toModel.unpack.abs := rfl
    rw [← hs] at hunpack
    rw [hunpack] at habs
    exact eq_of_unpack (hunpack'.trans (habs.trans (stored_finite .positive hm (canonical_nearest _) hmost)).symm)

end Widened

end FloatOrder

end DerivedSignal
