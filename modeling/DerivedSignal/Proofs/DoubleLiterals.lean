import DerivedSignal.Exchange
import DerivedSignal.Proofs.FloatMultiplication
import DerivedSignal.Proofs.JsonValues
import DerivedSignal.Proofs.ShortestDecimals

namespace DerivedSignal

namespace FloatOrder

open Float.Model Float.Model.UnpackedFloat FloatRounding

/-- The exponent field of a double. -/
theorem toNat_unpackExponent (b : BitVec 64) :
    (@unpackExponent Format.binary64 b).toNat = b.toNat / 2 ^ 52 % 2 ^ 11 := by
  simp [unpackExponent, BitVec.extractLsb, BitVec.extractLsb', Nat.shiftRight_eq_div_pow]

/-- A double is finite unless all digits of its exponent are set. -/
theorem isFinite_unpack (b : BitVec 64) :
    (UnpackedFloat.unpack Format.binary64 b).isFinite = true ↔ (@unpackExponent Format.binary64 b).toNat ≠ 2047 := by
  have hmost : ∀ e : BitVec 11, e = -1#11 ↔ e.toNat = 2047 := fun e => BitVec.toNat_inj.symm
  have hzero : ∀ e : BitVec 11, e = 0#11 → e.toNat ≠ 2047 := by
    rintro e rfl
    decide
  fun_cases UnpackedFloat.unpack Format.binary64 b
  case case1 hinf _ => exact iff_of_false Bool.false_ne_true (not_not.mpr ((hmost _).mp hinf))
  case case2 hinf _ => exact iff_of_false Bool.false_ne_true (not_not.mpr ((hmost _).mp hinf))
  case case3 hnone _ => exact iff_of_true rfl (hzero _ hnone)
  case case4 hnone _ => exact iff_of_true rfl (hzero _ hnone)
  case case5 hinf _ => exact iff_of_true rfl fun h => hinf ((hmost _).mpr h)

/-- The doubles that have a value are the finite ones. -/
theorem isSome_ofFloat? (x : Float) : (Binary.ofFloat? x).isSome = true ↔ x.isFinite = true := by
  have hfinite : x.isFinite = (UnpackedFloat.unpack Format.binary64 x.toBits.toBitVec).isFinite := rfl
  have hbits : x.toBits.toBitVec.toNat = x.toBits.toNat := rfl
  have htwo : twoTo 11 - 1 = 2047 := rfl
  rw [hfinite, isFinite_unpack, toNat_unpackExponent, hbits]
  unfold Binary.ofFloat?
  simp only [htwo]
  split
  next h => exact iff_of_false Bool.false_ne_true (not_not.mpr h)
  next h =>
    split
    next => exact iff_of_true rfl h
    next => exact iff_of_true rfl h

end FloatOrder

namespace Json

namespace Numeral

open Decimal (shortest)

variable {n s : ℕ} {cs : List Char} {b : Binary}

/-- The literal of a finite double. -/
def written (b : Binary) : Numeral :=
  let d := shortest b
  if -5 ≤ d.leading ∧ d.leading ≤ 15 then
    match d.places with
    | (whole, []) => ⟨b.negative, whole, ['0'], none⟩
    | (whole, fraction) => ⟨b.negative, whole, fraction, none⟩
  else
    let (whole, fraction) := d.mantissa
    ⟨b.negative, whole, fraction, some d.leading⟩

theorem ofFloat?_eq (x : Float) : ofFloat? x = (Binary.ofFloat? x).map written := rfl

/-- The number that the digits of a literal stand for. -/
def value (n : Numeral) : ℚ :=
  Nat.ofDigitChars 10 (n.whole ++ n.fraction) 0 * 10 ^ (n.exponent.getD 0 - n.fraction.length)

/-- Digits with zeros in front, so that there is one before the last `k` of them. -/
def padded (n k : ℕ) : List Char := List.replicate (k + 1 - (Nat.toDigits 10 n).length) '0' ++ Nat.toDigits 10 n

theorem length_padded (n k : ℕ) : (padded n k).length = max (k + 1) (Nat.toDigits 10 n).length := by
  rw [padded, List.length_append, List.length_replicate]
  omega

theorem padded_isDigit (n k : ℕ) : ∀ c ∈ padded n k, c.isDigit = true := by
  intro c hc
  rcases List.mem_append.mp hc with hzero | hdigit
  · rw [List.eq_of_mem_replicate hzero]
    rfl
  · exact toDigits_isDigit n c hdigit

theorem ofDigitChars_padded (n k : ℕ) : Nat.ofDigitChars 10 (padded n k) 0 = n := by
  rw [padded, Nat.ofDigitChars_append, Nat.ofDigitChars_replicate_zero, Nat.mul_zero, Nat.ofDigitChars_ten_toDigits]

/-- A zero in front of the last `k` places stands alone. -/
theorem front_padded {k : ℕ} {ds : List Char} (hn : 0 < n) (hk : 0 < k)
    (h : (padded n k).take ((padded n k).length - k) = '0' :: ds) : ds = [] := by
  have hpadded := length_padded n k
  obtain ⟨d, tail, hd, hne⟩ := toDigits_eq_cons hn
  rcases Nat.lt_or_ge k (Nat.toDigits 10 n).length with hlong | hshort
  · -- With enough digits there is no padding.
    have hnone : k + 1 - (Nat.toDigits 10 n).length = 0 := by omega
    obtain ⟨j, hj⟩ : ∃ j, (padded n k).length - k = j + 1 := ⟨(padded n k).length - k - 1, by omega⟩
    rw [hj, padded, hnone, List.replicate_zero, List.nil_append, hd, List.take_succ_cons] at h
    exact absurd (List.cons.inj h).1 hne
  · have hlength := congrArg List.length h
    rw [List.length_take, List.length_cons] at hlength
    exact List.eq_nil_of_length_eq_zero (by omega)

/-- The three forms of a literal: a whole number, digits around a point, and one digit with an exponent. -/
theorem written_cases (b : Binary) :
    (∃ k : ℕ, (shortest b).exponent = k ∧ (shortest b).leading ≤ 15 ∧
      written b = ⟨b.negative, Nat.toDigits 10 (shortest b).digits ++ List.replicate k '0', ['0'], none⟩) ∨
    (∃ k : ℕ, (shortest b).exponent = -(k + 1 : ℕ) ∧ (shortest b).leading ≤ 15 ∧
      written b = ⟨b.negative,
        (padded (shortest b).digits (k + 1)).take ((padded (shortest b).digits (k + 1)).length - (k + 1)),
        (padded (shortest b).digits (k + 1)).drop ((padded (shortest b).digits (k + 1)).length - (k + 1)), none⟩) ∨
    (∃ c cs, Nat.toDigits 10 (shortest b).digits = c :: cs ∧
      written b = ⟨b.negative, [c], cs, some (shortest b).leading⟩) := by
  unfold written
  generalize shortest b = d
  simp only
  split
  next h =>
    rcases le_or_gt 0 d.exponent with he | he
    · obtain ⟨k, hk⟩ := Int.eq_ofNat_of_zero_le he
      refine .inl ⟨k, hk, h.2, ?_⟩
      have hplaces : d.places = (Nat.toDigits 10 d.digits ++ List.replicate k '0', []) := by
        rw [Decimal.places, if_pos he, hk, Int.toNat_natCast]
      rw [hplaces]
    · obtain ⟨k, hk⟩ : ∃ k : ℕ, d.exponent = -(k + 1 : ℕ) := ⟨(-d.exponent).toNat - 1, by omega⟩
      refine .inr (.inl ⟨k, hk, h.2, ?_⟩)
      have hplaces : d.places = ((padded d.digits (k + 1)).take ((padded d.digits (k + 1)).length - (k + 1)),
          (padded d.digits (k + 1)).drop ((padded d.digits (k + 1)).length - (k + 1))) := by
        rw [Decimal.places, if_neg (by omega)]
        simp only [hk, neg_neg, Int.toNat_natCast]
        rfl
      rw [hplaces]
      split
      next heq =>
        have hlength := congrArg List.length (Prod.mk.inj heq).2
        have hpadded := length_padded d.digits (k + 1)
        rw [List.length_drop, List.length_nil] at hlength
        omega
      next heq =>
        cases heq
        rfl
  next h =>
    obtain ⟨c, cs, hcs⟩ := List.exists_cons_of_ne_nil (Nat.toDigits_ne_nil (b := 10) (n := d.digits))
    refine .inr (.inr ⟨c, cs, hcs, ?_⟩)
    simp only [Decimal.mantissa, hcs]

/-- The digits of a double and where its leading digit stands. -/
theorem leading_eq (d : Decimal) : d.leading = d.exponent + (Nat.toDigits 10 d.digits).length - 1 := rfl

/-- The literal stands for the shortest decimal. -/
theorem value_written (b : Binary) : (written b).value = (shortest b).value := by
  rw [Decimal.value]
  rcases written_cases b with ⟨k, hk, -, hform⟩ | ⟨k, hk, -, hform⟩ | ⟨c, cs, hcs, hform⟩
  · have hdigits : Nat.ofDigitChars 10 (Nat.toDigits 10 (shortest b).digits ++ List.replicate k '0' ++ ['0']) 0 =
        10 * (10 ^ k * (shortest b).digits) := by
      simp [Nat.ofDigitChars_append, Nat.ofDigitChars_replicate_zero, Nat.ofDigitChars_ten_toDigits,
        Nat.ofDigitChars_cons]
    rw [hform, hk, value]
    simp only [hdigits, Option.getD_none, List.length_singleton]
    push_cast
    rw [zpow_natCast, zpow_neg_one]
    ring
  · have hpadded := length_padded (shortest b).digits (k + 1)
    rw [hform, hk, value]
    simp only [List.take_append_drop, ofDigitChars_padded, Option.getD_none, List.length_drop]
    congr 2
    omega
  · have hdigits : Nat.ofDigitChars 10 (c :: cs) 0 = (shortest b).digits := by
      rw [← hcs, Nat.ofDigitChars_ten_toDigits]
    have hlength := congrArg List.length hcs
    have hleading := leading_eq (shortest b)
    rw [List.length_cons] at hlength
    rw [hform, value]
    simp only [List.singleton_append, hdigits, Option.getD_some]
    congr 2
    omega

theorem length_whole_written (b : Binary) : (written b).whole.length ≤ 16 := by
  have hleading := leading_eq (shortest b)
  rcases written_cases b with ⟨k, hk, hmost, hform⟩ | ⟨k, hk, hmost, hform⟩ | ⟨c, cs, hcs, hform⟩
  · rw [hform, List.length_append, List.length_replicate]
    omega
  · have hpadded := length_padded (shortest b).digits (k + 1)
    rw [hform, List.length_take]
    omega
  · simp [hform]

/-- The literal is proper, as the shortest digits do not begin with a zero unless there are no others. -/
theorem proper_written (h : 0 < (shortest b).digits ∨ (shortest b) = ⟨0, 0⟩) : (written b).Proper := by
  rcases written_cases b with ⟨k, hk, -, hform⟩ | ⟨k, hk, -, hform⟩ | ⟨c, cs, hcs, hform⟩
  · rw [hform]
    refine ⟨?_, ?_, ?_, ?_⟩
    · simp [Nat.toDigits_ne_nil]
    · intro c hc
      rcases List.mem_append.mp hc with hdigit | hzero
      · exact toDigits_isDigit _ c hdigit
      · rw [List.eq_of_mem_replicate hzero]
        rfl
    · intro ds hds
      rcases h with h | h
      · obtain ⟨d, tail, hd, hne⟩ := toDigits_eq_cons h
        rw [hd] at hds
        exact absurd (List.cons.inj hds).1 hne
      · rw [h] at hk hds
        obtain rfl : k = 0 := by simpa using hk.symm
        simpa using hds.symm
    · simp
  · have hpadded := length_padded (shortest b).digits (k + 1)
    rw [hform]
    refine ⟨?_, fun c hc => padded_isDigit _ _ c (List.mem_of_mem_take hc), ?_,
      fun c hc => padded_isDigit _ _ c (List.mem_of_mem_drop hc)⟩
    · refine List.ne_nil_of_length_pos ?_
      rw [List.length_take]
      omega
    · intro ds hds
      rcases h with h | h
      · exact front_padded h (by omega) hds
      · rw [h] at hk
        simp only at hk
        omega
  · rw [hform]
    have hdigit := toDigits_isDigit (shortest b).digits
    rw [hcs, List.forall_mem_cons] at hdigit
    exact ⟨List.cons_ne_nil _ _, by simpa using hdigit.1, fun ds hds => (List.cons.inj hds).2.symm, hdigit.2⟩

theorem digit_le {c : Char} (h : c.isDigit = true) : digit c ≤ 9 := by
  have hrange : 48 ≤ c.toNat ∧ c.toNat ≤ 57 := by
    simpa [Char.isDigit, UInt32.le_iff_toNat_le] using h
  unfold digit
  have hzero : '0'.toNat = 48 := rfl
  omega

theorem ofDigitChars_cons_eq (c : Char) (cs : List Char) (n : ℕ) :
    Nat.ofDigitChars 10 (c :: cs) n = Nat.ofDigitChars 10 cs (n * 10 + digit c) := by
  rw [Nat.ofDigitChars_cons, Nat.mul_comm]
  rfl

theorem le_ofDigitChars (cs : List Char) (n : ℕ) : n ≤ Nat.ofDigitChars 10 cs n := by
  rw [Nat.ofDigitChars_eq_ofDigitChars_zero]
  exact (Nat.le_mul_of_pos_left n (by positivity)).trans (Nat.le_add_right _ _)

theorem ofDigitChars_lt (h : ∀ c ∈ cs, c.isDigit = true) (n : ℕ) :
    Nat.ofDigitChars 10 cs n < (n + 1) * 10 ^ cs.length := by
  induction cs generalizing n with
  | nil => simp
  | cons c cs ih =>
    obtain ⟨hc, hcs⟩ := List.forall_mem_cons.mp h
    rw [ofDigitChars_cons_eq, List.length_cons, pow_succ']
    calc Nat.ofDigitChars 10 cs (n * 10 + digit c) < (n * 10 + digit c + 1) * 10 ^ cs.length := ih hcs _
      _ ≤ (n + 1) * 10 * 10 ^ cs.length := Nat.mul_le_mul_right _ (by have := digit_le hc; omega)
      _ = (n + 1) * (10 * 10 ^ cs.length) := by ring

/-- Digits that fit are gathered. -/
theorem gather_of_lt (h : Nat.ofDigitChars 10 cs n < 2 ^ 64) : gather n cs = (Nat.ofDigitChars 10 cs n, []) := by
  induction cs generalizing n with
  | nil => rfl
  | cons c cs ih =>
    rw [ofDigitChars_cons_eq] at h ⊢
    have hfits : n * 10 + digit c < twoTo 64 := (le_ofDigitChars cs _).trans_lt h
    rw [gather, if_pos hfits, ih h]

/-- Of other digits so many are gathered that the number is not zero. -/
theorem gather_eq (h : ∀ c ∈ cs, c.isDigit = true) (n : ℕ) : ∃ taken left, cs = taken ++ left ∧
    gather n cs = (Nat.ofDigitChars 10 taken n, left) ∧ (left ≠ [] → 0 < Nat.ofDigitChars 10 taken n) := by
  induction cs generalizing n with
  | nil => exact ⟨[], [], rfl, rfl, fun hne => absurd rfl hne⟩
  | cons c cs ih =>
    obtain ⟨hc, hcs⟩ := List.forall_mem_cons.mp h
    rw [gather]
    split
    next =>
      obtain ⟨taken, left, hsplit, hgather, hpos⟩ := ih hcs (n * 10 + digit c)
      refine ⟨c :: taken, left, by rw [hsplit, List.cons_append], ?_, ?_⟩
      · rw [hgather, ofDigitChars_cons_eq]
      · rwa [ofDigitChars_cons_eq]
    next hlarge =>
      refine ⟨[], c :: cs, rfl, rfl, fun _ => ?_⟩
      have hdigit := digit_le hc
      have htwo : twoTo 64 = 2 ^ 64 := rfl
      rw [htwo] at hlarge
      rw [Nat.ofDigitChars_nil]
      omega

/-- Dividing by powers of ten never leads to an infinity. -/
theorem scale_isSome_of_neg {steps : ℕ} {x : Float} {e : ℤ} (he : e < 0) : (scale steps x e).isSome = true := by
  induction steps generalizing x e with
  | zero => rfl
  | succ steps ih =>
    unfold scale
    rw [if_neg (show ¬ e ≥ 0 by omega), if_neg (show ¬ e ≥ 0 by omega)]
    split
    next => rfl
    next =>
      split
      next => rfl
      next => exact ih (by omega)

/-- Neither does multiplying, if the product is a little less than the greatest double. -/
theorem scale_isSome_of_le {steps k g : ℕ} (hs : 0 < s) (hg : g + 3 = 2 ^ 53) (h : s * 10 ^ k ≤ g * 2 ^ 971) :
    (scale (steps + 1) (FloatMath.ofInt s) k).isSome = true := by
  have hsmall : k ≤ 308 := by
    by_contra hlarge
    obtain ⟨most, hmost, hten⟩ : ∃ most, g * 2 ^ 971 < most ∧ most ≤ 10 ^ k := by
      have hpower : 2 ^ 53 * 2 ^ 971 < 10 ^ 309 := by decide +kernel
      have hpow : 10 ^ 309 ≤ 10 ^ k := pow_le_pow_right₀ (by norm_num) (by omega)
      generalize 10 ^ 309 = most at hpower hpow
      exact ⟨most, (Nat.mul_le_mul_right _ (by omega)).trans_lt hpower, hpow⟩
    exact absurd ((hten.trans (Nat.le_mul_of_pos_left _ hs)).trans h) hmost.not_ge
  have hfinite : (FloatMath.ofInt s * power k).isInf = false :=
    FloatOrder.isInf_ofInt_mul hs (show 0 < tenTo k from Nat.pow_pos (by norm_num)) hg h
  unfold scale
  simp [hsmall, hfinite]

/-- A literal is read if its value is a little less than the greatest double. -/
theorem toFloat?_isSome {n : Numeral} (h : n.Proper) (hlength : n.whole.length ≤ 16) (hpos : 0 < n.value)
    {g : ℕ} (hg : g + 3 = 2 ^ 53) (hle : n.value ≤ g * 2 ^ 971) : n.toFloat?.isSome = true := by
  have hwhole : gather 0 n.whole = (Nat.ofDigitChars 10 n.whole 0, []) := by
    refine gather_of_lt ((ofDigitChars_lt h.whole 0).trans_le ?_)
    rw [Nat.zero_add, Nat.one_mul]
    exact (Nat.pow_le_pow_right (by norm_num) hlength).trans (by norm_num)
  obtain ⟨taken, left, hsplit, hgather, hleft⟩ := gather_eq h.fraction (Nat.ofDigitChars 10 n.whole 0)
  set significand := Nat.ofDigitChars 10 taken (Nat.ofDigitChars 10 n.whole 0) with hsignificand
  have hall : Nat.ofDigitChars 10 (n.whole ++ n.fraction) 0 =
      10 ^ left.length * significand + Nat.ofDigitChars 10 left 0 := by
    rw [hsplit, Nat.ofDigitChars_append, Nat.ofDigitChars_append, ← hsignificand,
      Nat.ofDigitChars_eq_ofDigitChars_zero]
  have hfraction : n.fraction.length = taken.length + left.length := by rw [hsplit, List.length_append]
  have hexponent : (([] : List Char).length : ℤ) - ((n.fraction.length - left.length : ℕ) : ℤ) + n.exponent.getD 0 =
      n.exponent.getD 0 - taken.length := by
    rw [hfraction]
    simp
    ring
  simp only [toFloat?, hwhole, hgather, Option.isSome_map, hexponent]
  split
  next => rfl
  next =>
    rcases lt_or_ge (n.exponent.getD 0 - taken.length) 0 with hneg | hnonneg
    · exact scale_isSome_of_neg hneg
    · obtain ⟨k, hk⟩ := Int.eq_ofNat_of_zero_le hnonneg
      have hs : 0 < significand := by
        refine Nat.pos_of_ne_zero fun hzero => ?_
        cases left with
        | nil =>
          rw [value, hall, hzero] at hpos
          simp at hpos
        | cons c cs => exact (hleft (List.cons_ne_nil c cs)).ne' hzero
      have hbound : (significand : ℚ) * 10 ^ k ≤ g * 2 ^ 971 := by
        refine le_trans ?_ hle
        have hplaces : n.exponent.getD 0 - n.fraction.length = k - left.length := by omega
        rw [value, hall, hplaces, zpow_sub₀ (by norm_num), zpow_natCast, zpow_natCast]
        push_cast
        rw [mul_div_assoc', le_div_iff₀ (by positivity)]
        nlinarith [show (0 : ℚ) ≤ Nat.ofDigitChars 10 left 0 * 10 ^ k by positivity]
      rw [hk]
      exact scale_isSome_of_le hs hg (by exact_mod_cast hbound)

/-- What a finite double can be. -/
structure Finite (b : Binary) : Prop where
  significand : b.significand < 2 ^ 53
  least : -1074 ≤ b.exponent
  most : b.exponent ≤ 971

theorem finite_of_ofFloat? {x : Float} (h : Binary.ofFloat? x = some b) : Finite b := by
  have htwo : twoTo 11 = 2048 ∧ twoTo 52 = 4503599627370496 := ⟨rfl, rfl⟩
  unfold Binary.ofFloat? at h
  simp only [htwo] at h
  split at h
  next => cases h
  next hfield =>
    split at h
    next =>
      cases h
      exact ⟨by simp only; omega, by simp, by simp⟩
    next hnormal =>
      cases h
      exact ⟨by simp only; omega, by simp only; omega, by simp only; omega⟩

theorem shortest_zero (h : b.significand = 0) : shortest b = ⟨0, 0⟩ := if_pos h

/-- Half a unit above every double but the three greatest lies at most at the least of these. -/
theorem half_above_le {significand : ℕ} {exponent : ℤ} (hsignificand : significand < 2 ^ 53)
    (hmost : exponent ≤ 971) (htop : ¬ (exponent = 971 ∧ 2 ^ 53 - 4 < significand)) :
    ((significand : ℚ) + 1 / 2) * 2 ^ exponent ≤ ((2 ^ 53 - 3 : ℕ) : ℚ) * 2 ^ 971 := by
  have hcast : ((2 ^ 53 - 3 : ℕ) : ℚ) = 2 ^ 53 - 3 := by norm_num
  rw [hcast]
  rcases hmost.lt_or_eq with hlow | rfl
  · have hdouble : (2 : ℚ) ^ exponent * 2 ≤ 2 ^ 971 := by
      rw [← zpow_add_one₀ two_ne_zero, ← zpow_natCast]
      exact zpow_le_zpow_right₀ (by norm_num) (by push_cast; omega)
    have hsmall : (significand : ℚ) < 2 ^ 53 := by exact_mod_cast hsignificand
    calc ((significand : ℚ) + 1 / 2) * 2 ^ exponent ≤ (2 ^ 53 - 3) * 2 * 2 ^ exponent := by
          gcongr
          linarith
      _ = (2 ^ 53 - 3) * (2 ^ exponent * 2) := by ring
      _ ≤ (2 ^ 53 - 3) * 2 ^ 971 := mul_le_mul_of_nonneg_left hdouble (by norm_num)
  · have hsmall : (significand : ℚ) + 4 ≤ 2 ^ 53 := by
      exact_mod_cast (by omega : significand + 4 ≤ 2 ^ 53)
    exact mul_le_mul_of_nonneg_right (by linarith) (by positivity)

/-- A number is read from the literal of every finite double. -/
theorem toFloat?_written (h : Finite b) : (written b).toFloat?.isSome = true := by
  obtain ⟨negative, significand, exponent⟩ := b
  obtain ⟨hsignificand, hleast, hmost⟩ := h
  simp only at hsignificand hleast hmost
  rcases Nat.eq_zero_or_pos significand with rfl | hpos
  · have hform : written ⟨negative, 0, exponent⟩ = ⟨negative, ['0'], ['0'], none⟩ := by
      rw [written, shortest_zero rfl]
      rfl
    rw [hform]
    cases negative <;> decide +kernel
  · obtain ⟨hdigits, hvalue⟩ :=
      Decimal.shortest_le (b := ⟨negative, significand, exponent⟩) hpos hsignificand hleast hmost
    by_cases htop : exponent = 971 ∧ 2 ^ 53 - 4 < significand
    · -- The rounded product of the greatest doubles stays finite, but not for reasons of size alone.
      obtain ⟨rfl, hgreat⟩ := htop
      have hcases : significand = 2 ^ 53 - 3 ∨ significand = 2 ^ 53 - 2 ∨ significand = 2 ^ 53 - 1 := by omega
      rcases hcases with rfl | rfl | rfl <;> cases negative <;> decide +kernel
    · have hpositive : 0 < (written ⟨negative, significand, exponent⟩).value := by
        have hcast : (0 : ℚ) < (shortest ⟨negative, significand, exponent⟩).digits := by exact_mod_cast hdigits
        rw [value_written, Decimal.value]
        positivity
      have hle := hvalue.trans (half_above_le hsignificand hmost htop)
      rw [← value_written] at hle
      exact toFloat?_isSome (proper_written (.inl hdigits)) (length_whole_written _) hpositive (by norm_num) hle

theorem proper_of_ofFloat? {x : Float} {n : Numeral} (h : ofFloat? x = some n) : n.Proper := by
  rw [ofFloat?_eq] at h
  obtain ⟨b, hb, rfl⟩ := Option.map_eq_some_iff.mp h
  obtain ⟨hsignificand, hleast, hmost⟩ := finite_of_ofFloat? hb
  rcases Nat.eq_zero_or_pos b.significand with hzero | hpos
  · exact proper_written (.inr (shortest_zero hzero))
  · exact proper_written (.inl (Decimal.shortest_le hpos hsignificand hleast hmost).1)

end Numeral

/-- A double is read from what is written for it just if it is finite. -/
theorem float?_ofFloat (x : Float) : (Exchange.float? (Value.ofFloat x)).isSome = true ↔ x.isFinite = true := by
  rw [← FloatOrder.isSome_ofFloat?, Value.ofFloat, Numeral.ofFloat?_eq]
  cases hb : Binary.ofFloat? x with
  | none => simp [Exchange.float?]
  | some b => simpa [Exchange.float?] using Numeral.toFloat?_written (Numeral.finite_of_ofFloat? hb)

theorem Value.proper_ofFloat (x : Float) : (Value.ofFloat x).Proper := by
  unfold Value.ofFloat
  split
  next h => exact .number (Numeral.proper_of_ofFloat? h)
  next => exact .null

end Json

end DerivedSignal
