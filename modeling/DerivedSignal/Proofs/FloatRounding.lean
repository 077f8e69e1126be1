import Mathlib

namespace DerivedSignal

namespace FloatRounding

open Float.Model Float.Model.UnpackedFloat

/-- The quotient by a power of two, rounded to the nearest integer; a half goes to the even one. -/
def roundShift (n k : ℕ) : ℕ :=
  if 2 ^ k < 2 * (n % 2 ^ k) ∨ 2 ^ k = 2 * (n % 2 ^ k) ∧ n / 2 ^ k % 2 = 1 then n / 2 ^ k + 1
  else n / 2 ^ k

theorem div_le_roundShift (n k : ℕ) : n / 2 ^ k ≤ roundShift n k := by
  unfold roundShift
  split <;> omega

theorem roundShift_le_div (n k : ℕ) : roundShift n k ≤ n / 2 ^ k + 1 := by
  unfold roundShift
  split <;> omega

theorem roundShift_mono {n m : ℕ} (h : n ≤ m) (k : ℕ) : roundShift n k ≤ roundShift m k := by
  have hq : n / 2 ^ k ≤ m / 2 ^ k := Nat.div_le_div_right h
  rcases hq.lt_or_eq with hq | hq
  · -- Rounding up adds one at most, and the quotients differ by that.
    have hn := roundShift_le_div n k
    have hm := div_le_roundShift m k
    omega
  · have hr : n % 2 ^ k ≤ m % 2 ^ k := by
      have hn := Nat.div_add_mod n (2 ^ k)
      have hm := Nat.div_add_mod m (2 ^ k)
      rw [hq] at hn
      omega
    unfold roundShift
    rw [hq]
    split <;> split <;> omega

theorem roundShift_mul (n k j : ℕ) : roundShift (n * 2 ^ j) (k + j) = roundShift n k := by
  have hj : 0 < 2 ^ j := Nat.two_pow_pos j
  have hdiv : n * 2 ^ j / 2 ^ (k + j) = n / 2 ^ k := by
    rw [pow_add, Nat.mul_div_mul_right _ _ hj]
  have hmod : n * 2 ^ j % 2 ^ (k + j) = n % 2 ^ k * 2 ^ j := by
    rw [pow_add, Nat.mul_mod_mul_right]
  have hlt : 2 ^ (k + j) < 2 * (n % 2 ^ k * 2 ^ j) ↔ 2 ^ k < 2 * (n % 2 ^ k) := by
    rw [pow_add, ← mul_assoc, Nat.mul_lt_mul_right hj]
  have heq : 2 ^ (k + j) = 2 * (n % 2 ^ k * 2 ^ j) ↔ 2 ^ k = 2 * (n % 2 ^ k) := by
    rw [pow_add, ← mul_assoc, Nat.mul_left_inj hj.ne']
  unfold roundShift
  simp only [hdiv, hmod, hlt, heq]

theorem roundShift_zero (n : ℕ) : roundShift n 0 = n := by
  simp [roundShift, Nat.mod_one]

theorem shiftRight_exact (n k : ℕ) :
    ExtendedMantissa.ofMantissaAndAccuracy n .exact >>> k =
      ⟨n / 2 ^ k, decide (2 ^ k ≤ 2 * (n % 2 ^ k)),
        decide (n % 2 ^ k ≠ 0 ∧ 2 * (n % 2 ^ k) ≠ 2 ^ k)⟩ := by
  change k.repeat ExtendedMantissa.shiftRightOne _ = _
  induction k with
  | zero => simp [Nat.repeat, ExtendedMantissa.ofMantissaAndAccuracy, Nat.mod_one]
  | succ k ih =>
    have hk : 0 < 2 ^ k := Nat.two_pow_pos k
    have hr : n % 2 ^ k < 2 ^ k := Nat.mod_lt _ hk
    have hmod : n % 2 ^ (k + 1) = n % 2 ^ k + 2 ^ k * (n / 2 ^ k % 2) := by
      rw [pow_succ, Nat.mod_mul]
    have hdiv : n / 2 ^ (k + 1) = n / 2 ^ k / 2 := by rw [pow_succ, Nat.div_div_eq_div_mul]
    rw [Nat.repeat, ih, ExtendedMantissa.shiftRightOne, hmod, hdiv, pow_succ]
    -- The digit that is shifted out is the one to round by, and the one before it joins the rest.
    have hround : ((n / 2 ^ k % 2 != 0) : Bool) =
        decide (2 ^ k * 2 ≤ 2 * (n % 2 ^ k + 2 ^ k * (n / 2 ^ k % 2))) := by
      rcases Nat.mod_two_eq_zero_or_one (n / 2 ^ k) with hb | hb <;> simp [hb] <;> omega
    have hsticky : (decide (2 ^ k ≤ 2 * (n % 2 ^ k)) ||
          decide (n % 2 ^ k ≠ 0 ∧ 2 * (n % 2 ^ k) ≠ 2 ^ k)) =
        decide (n % 2 ^ k + 2 ^ k * (n / 2 ^ k % 2) ≠ 0 ∧
          2 * (n % 2 ^ k + 2 ^ k * (n / 2 ^ k % 2)) ≠ 2 ^ k * 2) := by
      rw [← Bool.decide_or, decide_eq_decide]
      rcases Nat.mod_two_eq_zero_or_one (n / 2 ^ k) with hb | hb <;> rw [hb] <;> omega
    rw [hround, hsticky]

theorem roundedMantissa_shiftRight (n k : ℕ) :
    (ExtendedMantissa.ofMantissaAndAccuracy n .exact >>> k).roundedMantissa = roundShift n k := by
  have hk : 0 < 2 ^ k := Nat.two_pow_pos k
  rw [shiftRight_exact, roundShift]
  generalize n / 2 ^ k = q
  generalize n % 2 ^ k = r
  rcases lt_trichotomy (2 ^ k) (2 * r) with h | h | h
  · have hr : r ≠ 0 := by omega
    simp [ExtendedMantissa.roundedMantissa, h.le, h, h.ne', hr, ExtendedMantissa.accuracy,
      Accuracy.roundToNearestEven]
  · have hr : r ≠ 0 := by omega
    rcases Nat.mod_two_eq_zero_or_one q with hq | hq <;>
      simp [ExtendedMantissa.roundedMantissa, h, hr, hq, ExtendedMantissa.accuracy,
        Accuracy.roundToNearestEven]
  · by_cases hr : r = 0 <;>
      simp [ExtendedMantissa.roundedMantissa, h.not_ge, h.not_gt, h.ne, h.ne', hr,
        ExtendedMantissa.accuracy, Accuracy.roundToNearestEven]

theorem log2_mul_two_pow {n : ℕ} (h : n ≠ 0) (j : ℕ) : (n * 2 ^ j).log2 = n.log2 + j := by
  have hp : n * 2 ^ j ≠ 0 := Nat.mul_ne_zero h (Nat.two_pow_pos j).ne'
  refine Nat.le_antisymm (Nat.lt_succ_iff.mp ((Nat.log2_lt hp).mpr ?_)) ((Nat.le_log2 hp).mpr ?_)
  · calc n * 2 ^ j < 2 ^ (n.log2 + 1) * 2 ^ j :=
          Nat.mul_lt_mul_of_pos_right Nat.lt_log2_self (Nat.two_pow_pos j)
      _ = 2 ^ (n.log2 + j + 1) := by rw [← pow_add, Nat.add_right_comm]
  · rw [pow_add]
    exact Nat.mul_le_mul_right _ (Nat.log2_self_le h)

/-- How many of the lower digits of a number a double cannot hold. -/
def excess (n : ℕ) : ℕ := n.log2 - 52

theorem roundShift_excess_le (n : ℕ) : roundShift n (excess n) ≤ 2 ^ 53 := by
  have hlt : n / 2 ^ excess n < 2 ^ 53 := by
    rw [Nat.div_lt_iff_lt_mul (Nat.two_pow_pos _), ← pow_add]
    refine Nat.lt_log2_self.trans_le (Nat.pow_le_pow_right (by omega) ?_)
    unfold excess
    omega
  have := roundShift_le_div n (excess n)
  omega

theorem le_roundShift_excess {n : ℕ} (h : excess n ≠ 0) : 2 ^ 52 ≤ roundShift n (excess n) := by
  refine le_trans ?_ (div_le_roundShift n (excess n))
  have hn : n ≠ 0 := by
    rintro rfl
    simp [excess] at h
  rw [Nat.le_div_iff_mul_le (Nat.two_pow_pos _), ← pow_add]
  refine le_trans (Nat.pow_le_pow_right (by omega) ?_) (Nat.log2_self_le hn)
  unfold excess at *
  omega

theorem roundShift_excess_pos {n : ℕ} (h : 0 < n) : 0 < roundShift n (excess n) := by
  by_cases he : excess n = 0
  · rw [he, roundShift_zero]
    exact h
  · exact lt_of_lt_of_le (by norm_num) (le_roundShift_excess he)

/-- The mantissa of the double nearest to `n` times the least one. -/
def nearestMantissa (n : ℕ) : ℕ :=
  if roundShift n (excess n) = 2 ^ 53 then 2 ^ 52 else roundShift n (excess n)

/-- The exponent of the double nearest to `n` times the least one. -/
def nearestExponent (n : ℕ) : ℤ :=
  (if roundShift n (excess n) = 2 ^ 53 then excess n + 1 else excess n) - 1074

theorem nearestMantissa_pos {n : ℕ} (h : 0 < n) : 0 < nearestMantissa n := by
  have := roundShift_excess_pos h
  unfold nearestMantissa
  split <;> omega

theorem targetExponent_eq (t : ℤ) : Format.binary64.targetExponent t = max (t - 53) (-1074) := rfl

/-- A mantissa that rounding has made one digit too long is shifted once more. -/
theorem shiftToTargetExponent_rounded {q : ℕ} (hq : 0 < q) (hle : q ≤ 2 ^ 53) {e : ℤ}
    (he : -1074 ≤ e) :
    (shiftToTargetExponent Format.binary64 q e .exact).1.mantissa =
        (if q = 2 ^ 53 then 2 ^ 52 else q) ∧
      (shiftToTargetExponent Format.binary64 q e .exact).2 =
        if q = 2 ^ 53 then e + 1 else e := by
  have hshift : (Format.binary64.targetExponent (totalExponent q e) - e).toNat =
      if q = 2 ^ 53 then 1 else 0 := by
    rw [targetExponent_eq, totalExponent]
    split
    next h =>
      rw [h, Nat.log2_two_pow]
      omega
    next h =>
      have hlog : q.log2 < 53 := (Nat.log2_lt hq.ne').mpr (lt_of_le_of_ne hle h)
      omega
  rw [shiftToTargetExponent, shiftToExponent, hshift, shiftRight_exact]
  split
  next h =>
    rw [h]
    exact ⟨by norm_num, rfl⟩
  next => simp

theorem roundWithAccuracy_eq {m : ℕ} (hm : 0 < m) (s : Sign) {e : ℤ} (he : -1074 ≤ e)
    (ht : e ≤ Format.binary64.targetExponent (totalExponent m e)) :
    ∃ h, roundWithAccuracy Format.binary64 s m e .exact =
      .finite s (nearestMantissa (m * 2 ^ (e + 1074).toNat))
        (nearestExponent (m * 2 ^ (e + 1074).toNat)) h := by
  have hpos : 0 < m * 2 ^ (e + 1074).toNat := Nat.mul_pos hm (Nat.two_pow_pos _)
  have hexcess : excess (m * 2 ^ (e + 1074).toNat) =
      (Format.binary64.targetExponent (totalExponent m e) - e).toNat + (e + 1074).toNat := by
    rw [targetExponent_eq, totalExponent] at *
    unfold excess
    rw [log2_mul_two_pow hm.ne']
    omega
  have hround : roundShift m (Format.binary64.targetExponent (totalExponent m e) - e).toNat =
      roundShift (m * 2 ^ (e + 1074).toNat) (excess (m * 2 ^ (e + 1074).toNat)) := by
    rw [hexcess, roundShift_mul]
  have hexponent : e + (Format.binary64.targetExponent (totalExponent m e) - e).toNat =
      excess (m * 2 ^ (e + 1074).toNat) - 1074 := by
    rw [hexcess]
    omega
  generalize m * 2 ^ (e + 1074).toNat = n at *
  obtain ⟨hmantissa, hfinal⟩ := shiftToTargetExponent_rounded (roundShift_excess_pos hpos)
    (roundShift_excess_le n) (show -1074 ≤ (excess n : ℤ) - 1074 by omega)
  have hmantissa' : (shiftToTargetExponent Format.binary64 (roundShift n (excess n))
      (excess n - 1074) .exact).1.mantissa = nearestMantissa n := hmantissa
  have hfinal' : (shiftToTargetExponent Format.binary64 (roundShift n (excess n))
      (excess n - 1074) .exact).2 = nearestExponent n := by
    rw [hfinal, nearestExponent]
    split <;> push_cast <;> ring
  refine ⟨nearestMantissa_pos hpos, ?_⟩
  have hfirst : shiftToTargetExponent Format.binary64 m e .exact =
      (ExtendedMantissa.ofMantissaAndAccuracy m .exact >>>
        (Format.binary64.targetExponent (totalExponent m e) - e).toNat, (excess n : ℤ) - 1074) := by
    rw [← hexponent]
    rfl
  simp only [roundWithAccuracy, hfirst, roundedMantissa_shiftRight, hround, hmantissa', hfinal',
    (nearestMantissa_pos hpos).ne', dif_neg, not_false_eq_true]

theorem round_eq {m : ℕ} (hm : 0 < m) (s : Sign) {e : ℤ} (he : -1074 ≤ e) :
    ∃ h, round Format.binary64 s m e =
      .finite s (nearestMantissa (m * 2 ^ (e + 1074).toNat))
        (nearestExponent (m * 2 ^ (e + 1074).toNat)) h := by
  let target := Format.binary64.targetExponent (totalExponent m e)
  let shift := (e - target).toNat
  have hlow : -1074 ≤ target := by
    simp only [target, targetExponent_eq]
    omega
  have hsame : Format.binary64.targetExponent (totalExponent (m * 2 ^ shift) (e - shift)) = target := by
    simp only [target, totalExponent, log2_mul_two_pow hm.ne']
    congr 1
    push_cast
    ring
  have hpos : 0 < m * 2 ^ shift := Nat.mul_pos hm (Nat.two_pow_pos _)
  have hn : m * 2 ^ shift * 2 ^ (e - shift + 1074).toNat = m * 2 ^ (e + 1074).toNat := by
    rw [mul_assoc, ← pow_add]
    congr 2
    omega
  have hrounded := roundWithAccuracy_eq hpos s (e := e - shift) (by omega) (by omega)
  rw [hn, ← Nat.shiftLeft_eq m shift] at hrounded
  exact hrounded

/-- What a finite double can be: of its 53 digits the first is set, unless its exponent is the least. -/
structure Canonical (m : ℕ) (e : ℤ) : Prop where
  mantissa : m < 2 ^ 53
  least : -1074 ≤ e
  normal : e = -1074 ∨ 2 ^ 52 ≤ m

theorem canonical_nearest (n : ℕ) : Canonical (nearestMantissa n) (nearestExponent n) := by
  have hle := roundShift_excess_le n
  unfold nearestMantissa nearestExponent
  split
  next => exact ⟨by norm_num, by omega, .inr le_rfl⟩
  next hne =>
    refine ⟨lt_of_le_of_ne hle hne, by omega, ?_⟩
    by_cases he : excess n = 0
    · exact .inl (by rw [he]; rfl)
    · exact .inr (le_roundShift_excess he)

theorem nearest_mono {n m : ℕ} (h : n ≤ m) :
    nearestExponent n < nearestExponent m ∨
      nearestExponent n = nearestExponent m ∧ nearestMantissa n ≤ nearestMantissa m := by
  have hn := roundShift_excess_le n
  have hm := roundShift_excess_le m
  have hexcess : excess n ≤ excess m := by
    unfold excess
    rw [Nat.log2_eq_log_two, Nat.log2_eq_log_two]
    exact Nat.sub_le_sub_right (Nat.log_mono_right h) 52
  unfold nearestExponent nearestMantissa
  rcases hexcess.lt_or_eq with hlt | heq
  · -- If `n` is rounded up to the next power of two, it comes to the exponent of `m` with the least mantissa.
    have hlow := le_roundShift_excess (show excess m ≠ 0 by omega)
    split <;> split <;> omega
  · have hmono := roundShift_mono h (excess m)
    rw [heq] at hn ⊢
    split <;> split <;> omega

theorem nearest_of_canonical {m : ℕ} {e : ℤ} (hm : 0 < m) (hc : Canonical m e) :
    nearestExponent (m * 2 ^ (e + 1074).toNat) = e ∧
      nearestMantissa (m * 2 ^ (e + 1074).toNat) = m := by
  have hlow := hc.least
  have hlt := hc.mantissa
  have hlog : m.log2 ≤ 52 := Nat.lt_succ_iff.mp ((Nat.log2_lt hm.ne').mpr hlt)
  have hexcess : excess (m * 2 ^ (e + 1074).toNat) = (e + 1074).toNat := by
    unfold excess
    rw [log2_mul_two_pow hm.ne']
    rcases hc.normal with rfl | hn
    · simp
      omega
    · have := (Nat.le_log2 hm.ne').mpr hn
      omega
  have hround : roundShift (m * 2 ^ (e + 1074).toNat) (e + 1074).toNat = m := by
    have h := roundShift_mul m 0 (e + 1074).toNat
    rwa [Nat.zero_add, roundShift_zero] at h
  unfold nearestExponent nearestMantissa
  rw [hexcess, hround, if_neg hlt.ne, if_neg hlt.ne]
  exact ⟨by omega, rfl⟩

end FloatRounding

end DerivedSignal
