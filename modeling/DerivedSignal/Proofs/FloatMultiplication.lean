import DerivedSignal.Proofs.WidenedIntegers

namespace DerivedSignal

namespace FloatRounding

open Float.Model Float.Model.UnpackedFloat

theorem two_mul_roundShift_le (n k : ℕ) : 2 * (roundShift n k * 2 ^ k) ≤ 2 * n + 2 ^ k := by
  have hdiv := Nat.div_add_mod n (2 ^ k)
  unfold roundShift
  split
  next h =>
    have hrest : 2 ^ k ≤ 2 * (n % 2 ^ k) := by omega
    nlinarith
  next =>
    have := Nat.div_mul_le_self n (2 ^ k)
    omega

/-- The double nearest to `n` times the least one, as a multiple of it. -/
theorem nearest_eq (n : ℕ) :
    nearestMantissa n * 2 ^ (nearestExponent n + 1074).toNat = roundShift n (excess n) * 2 ^ excess n := by
  unfold nearestMantissa nearestExponent
  split
  next h =>
    have hexponent : (((excess n + 1 : ℕ) : ℤ) - 1074 + 1074).toNat = excess n + 1 := by omega
    rw [hexponent, h]
    ring
  next =>
    have hexponent : ((excess n : ℤ) - 1074 + 1074).toNat = excess n := by omega
    rw [hexponent]

/-- Rounding adds at most one part in `2 ^ 53`. -/
theorem nearest_le (n : ℕ) :
    nearestMantissa n * 2 ^ (nearestExponent n + 1074).toNat * 2 ^ 53 ≤ n * (2 ^ 53 + 1) := by
  rw [nearest_eq]
  have hround := two_mul_roundShift_le n (excess n)
  by_cases he : excess n = 0
  · rw [he, roundShift_zero]
    omega
  · have hn : n ≠ 0 := by
      rintro rfl
      exact he rfl
    have hlarge : 2 ^ excess n * 2 ^ 52 ≤ n := by
      rw [← pow_add]
      refine le_trans (Nat.pow_le_pow_right (by norm_num) ?_) (Nat.log2_self_le hn)
      unfold excess at he ⊢
      omega
    calc roundShift n (excess n) * 2 ^ excess n * 2 ^ 53
        = 2 * (roundShift n (excess n) * 2 ^ excess n) * 2 ^ 52 := by ring
      _ ≤ (2 * n + 2 ^ excess n) * 2 ^ 52 := Nat.mul_le_mul_right _ hround
      _ = n * 2 ^ 53 + 2 ^ excess n * 2 ^ 52 := by ring
      _ ≤ n * 2 ^ 53 + n := Nat.add_le_add_left hlarge _
      _ = n * (2 ^ 53 + 1) := by ring

/-- Up to the greatest double no exponent is too great. -/
theorem nearestExponent_le {n m : ℕ} (hlow : 2 ^ 52 ≤ m) (hhigh : m < 2 ^ 53) (h : n ≤ m * 2 ^ 2045) :
    nearestExponent n ≤ 971 := by
  have htwo : ((971 : ℤ) + 1074).toNat = 2045 := rfl
  have hexponent := (nearest_of_canonical (e := 971) (by omega) ⟨hhigh, by norm_num, .inr hlow⟩).1
  rw [htwo] at hexponent
  rcases nearest_mono h with hlt | ⟨heq, -⟩
  · exact (hlt.trans_eq hexponent).le
  · exact (heq.trans hexponent).le

end FloatRounding

namespace FloatOrder

open Float.Model Float.Model.UnpackedFloat FloatRounding

/-- A product of doubles that have all their digits is the exact product, rounded. -/
theorem unpack_mul {x y : Float} {s s' : Sign} {m m' : ℕ} {e e' : ℤ} {hm : 0 < m} {hm' : 0 < m'}
    (hx : x.toModel.unpack = .finite s m e hm) (hy : y.toModel.unpack = .finite s' m' e' hm')
    (hlow : 2 ^ 52 ≤ m) (he : -1074 ≤ e + e') :
    ∃ h, (x * y).toModel.unpack = stored (.finite (s * s') (nearestMantissa (m * m' * 2 ^ (e + e' + 1074).toNat))
      (nearestExponent (m * m' * 2 ^ (e + e' + 1074).toNat)) h) := by
  have hpos : 0 < m * m' := Nat.mul_pos hm hm'
  have hlog : 52 ≤ (m * m').log2 := (Nat.le_log2 hpos.ne').mpr (hlow.trans (Nat.le_mul_of_pos_right m hm'))
  obtain ⟨h, hround⟩ := roundWithAccuracy_eq hpos (s * s') he (by
    rw [targetExponent_eq, totalExponent]
    omega)
  refine ⟨h, ?_⟩
  have hmul : (x * y).toModel.unpack =
      stored (UnpackedFloat.mul Format.binary64 x.toModel.unpack y.toModel.unpack) := rfl
  rw [hmul, hx, hy, ← hround]
  rfl

variable {a b : ℕ}

/-- The double of an integer has all its digits. -/
theorem normal_ofInt (ha : 0 < a) {g : ℕ} (hlow : 2 ^ 52 ≤ g) (hhigh : g < 2 ^ 53) (h : a ≤ g * 2 ^ 971) :
    ∃ m e hm, (FloatMath.ofInt a).toModel.unpack = .finite .positive m e hm ∧ 2 ^ 52 ≤ m ∧ -53 ≤ e ∧
      m * 2 ^ (e + 1074).toNat * 2 ^ 53 ≤ a * 2 ^ 1074 * (2 ^ 53 + 1) := by
  have hmost : nearestExponent (a * 2 ^ 1074) ≤ 971 := by
    refine nearestExponent_le hlow hhigh ?_
    calc a * 2 ^ 1074 ≤ g * 2 ^ 971 * 2 ^ 1074 := Nat.mul_le_mul_right _ h
      _ = g * 2 ^ 2045 := by rw [mul_assoc, ← pow_add]
  obtain ⟨hm, hunpack⟩ := unpack_ofInt .positive ha hmost
  refine ⟨_, _, hm, hunpack, (magnitudeBits_eq ha hmost).2, ?_, nearest_le _⟩
  unfold nearestExponent
  rw [excess_units ha]
  split <;> omega

/-- Two factors that are rounded up make a product that is greater by two parts in `2 ^ 53` at most. -/
theorem product_le {m m' p p' q u v g : ℕ} (hsplit : p * p' = q * u) (hu : 0 < u)
    (h₁ : m * p * 2 ^ 53 ≤ a * u * (2 ^ 53 + 1)) (h₂ : m' * p' * 2 ^ 53 ≤ b * u * (2 ^ 53 + 1))
    (hg : g + 3 = 2 ^ 53) (h : a * b ≤ g * v) : m * m' * q ≤ (g + 2) * (v * u) := by
  refine Nat.le_of_mul_le_mul_right ?_ (show 0 < u * 2 ^ 106 by positivity)
  calc m * m' * q * (u * 2 ^ 106) = m * m' * 2 ^ 106 * (q * u) := by ring
    _ = m * p * 2 ^ 53 * (m' * p' * 2 ^ 53) := by rw [← hsplit]; ring
    _ ≤ a * u * (2 ^ 53 + 1) * (b * u * (2 ^ 53 + 1)) := Nat.mul_le_mul h₁ h₂
    _ = a * b * (u * u * (2 ^ 53 + 1) ^ 2) := by ring
    _ ≤ g * v * (u * u * (2 ^ 53 + 1) ^ 2) := Nat.mul_le_mul_right _ h
    _ = g * (2 ^ 53 + 1) ^ 2 * (v * u * u) := by ring
    _ ≤ (g + 2) * 2 ^ 106 * (v * u * u) := by
        refine Nat.mul_le_mul_right _ ?_
        obtain rfl : g = 2 ^ 53 - 3 := by omega
        norm_num
    _ = (g + 2) * (v * u) * (u * 2 ^ 106) := by ring

/-- The product of two integers is finite as a double if it is a little less than the greatest one. -/
theorem isInf_ofInt_mul (ha : 0 < a) (hb : 0 < b) {g : ℕ} (hg : g + 3 = 2 ^ 53) (h : a * b ≤ g * 2 ^ 971) :
    (FloatMath.ofInt a * FloatMath.ofInt b).isInf = false := by
  obtain ⟨m, e, hm, hunpack, hlow, he, hround⟩ := normal_ofInt ha (g := g) (by omega) (by omega)
    ((Nat.le_mul_of_pos_right a hb).trans h)
  obtain ⟨m', e', hm', hunpack', hlow', he', hround'⟩ := normal_ofInt hb (g := g) (by omega) (by omega)
    ((Nat.le_mul_of_pos_left b ha).trans h)
  obtain ⟨hpos, hmul⟩ := unpack_mul hunpack hunpack' hlow (by omega)
  have hfits : nearestExponent (m * m' * 2 ^ (e + e' + 1074).toNat) ≤ 971 := by
    refine nearestExponent_le (m := g + 2) (by omega) (by omega) ?_
    have hsplit : 2 ^ (e + 1074).toNat * 2 ^ (e' + 1074).toNat = 2 ^ (e + e' + 1074).toNat * 2 ^ 1074 := by
      rw [← pow_add, ← pow_add]
      congr 1
      omega
    rw [show 2 ^ 2045 = 2 ^ 971 * 2 ^ 1074 by rw [← pow_add]]
    exact product_le hsplit (by positivity) hround hround' hg h
  have hinf : (FloatMath.ofInt a * FloatMath.ofInt b).isInf =
      (FloatMath.ofInt a * FloatMath.ofInt b).toModel.unpack.isInf := rfl
  rw [hinf, hmul, stored_finite _ hpos (canonical_nearest _) hfits]
  rfl

end FloatOrder

end DerivedSignal
