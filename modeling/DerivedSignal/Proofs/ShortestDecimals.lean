import DerivedSignal.Number.Decimal
import Mathlib

namespace DerivedSignal

/-- The magnitude of a binary number. -/
def Binary.magnitude (b : Binary) : ℚ := b.significand * 2 ^ b.exponent

namespace Decimal

variable {n d k m num den fuel : ℕ} {e unit place : ℤ} {i : Interval}

/-- The number that a decimal stands for. -/
def value (d : Decimal) : ℚ := d.digits * 10 ^ d.exponent

/-- A power of two as a fraction. -/
theorem ratio_eq (m : ℕ) (e : ℤ) {p : ℕ × ℕ}
    (hp : p = if e ≥ 0 then (m * twoTo e.toNat, 1) else (m, twoTo (-e).toNat)) :
    0 < p.2 ∧ (p.1 : ℚ) / p.2 = m * 2 ^ e := by
  subst hp
  split
  next h =>
    obtain ⟨n, rfl⟩ := Int.eq_ofNat_of_zero_le h
    exact ⟨one_pos, by simp [twoTo]⟩
  next h =>
    obtain ⟨n, rfl⟩ : ∃ n : ℕ, e = -(n : ℤ) := ⟨(-e).toNat, by omega⟩
    exact ⟨Nat.two_pow_pos _, by simp [twoTo, div_eq_mul_inv]⟩

theorem scaled_eq (n : ℕ) (hd : 0 < d) (k : ℤ) :
    0 < (scaled n d k).2 ∧ ((scaled n d k).1 : ℚ) / (scaled n d k).2 = n / d / 10 ^ k := by
  unfold scaled
  split
  next h =>
    obtain ⟨j, rfl⟩ := Int.eq_ofNat_of_zero_le h
    exact ⟨Nat.mul_pos hd (Nat.pow_pos (by norm_num)), by simp [tenTo, div_div]⟩
  next h =>
    obtain ⟨j, rfl⟩ : ∃ j : ℕ, k = -(j : ℤ) := ⟨(-k).toNat, by omega⟩
    exact ⟨hd, by simp [tenTo]; ring⟩

/-- The search goes down to a power of ten that is not greater, if it goes far enough. -/
theorem le_of_leadingPlace (hd : 0 < d) {start : ℤ} (h : (10 : ℚ) ^ (start - fuel) ≤ n / d) :
    (10 : ℚ) ^ leadingPlace n d fuel start ≤ n / d := by
  induction fuel generalizing start with
  | zero => simpa [leadingPlace] using h
  | succ fuel ih =>
    obtain ⟨hpos, hscaled⟩ := scaled_eq n hd start
    unfold leadingPlace
    simp only
    split
    next hle =>
      have hone : (1 : ℚ) ≤ (scaled n d start).1 / (scaled n d start).2 := by
        rw [one_le_div (by exact_mod_cast hpos)]
        exact_mod_cast hle
      rwa [hscaled, one_le_div (by positivity)] at hone
    next =>
      refine ih ?_
      rwa [show start - 1 - (fuel : ℤ) = start - ((fuel + 1 : ℕ) : ℤ) by push_cast; ring]

theorem le_of_holds {c : ℕ} (h : i.holds c num den = true) : c * den ≤ i.high * num := by
  unfold Interval.holds at h
  simp only at h
  split at h
  next =>
    simp only [Bool.and_eq_true, decide_eq_true_eq] at h
    exact h.2
  next =>
    simp only [Bool.and_eq_true, decide_eq_true_eq] at h
    exact h.2.le

theorem holds_of_lt {c : ℕ} (hlow : i.low * num < c * den) (hhigh : c * den < i.high * num) :
    i.holds c num den = true := by
  unfold Interval.holds
  simp only
  split <;> simp [hlow, hlow.le, hhigh, hhigh.le]

/-- The point next to the value, on a grid where the unit of the interval is a fraction. -/
def nextPoint? (i : Interval) (num den : ℕ) : Option ℕ :=
  let below := i.value * num / den
  let above := below + 1
  match i.holds below num den && below ≠ 0, i.holds above num den with
  | true, true =>
    let gap := i.value * num - below * den
    let gap' := above * den - i.value * num
    some (if gap < gap' ∨ (gap = gap' ∧ below % 2 = 0) then below else above)
  | true, false => some below
  | false, true => some above
  | false, false => none

theorem gridPoint?_eq (i : Interval) (unit k : ℤ) : ∃ num den : ℕ, 0 < den ∧ (num : ℚ) / den = 2 ^ unit / 10 ^ k ∧
    gridPoint? i unit k = nextPoint? i num den := by
  let power : ℕ × ℕ := if unit ≥ 0 then (twoTo unit.toNat, 1) else (1, twoTo (-unit).toNat)
  obtain ⟨hpos, hratio⟩ := ratio_eq 1 unit (p := power) (by simp only [power]; split <;> simp)
  obtain ⟨hden, hscaled⟩ := scaled_eq power.1 hpos k
  exact ⟨(scaled power.1 power.2 k).1, (scaled power.1 power.2 k).2, hden,
    by rw [hscaled, hratio, Nat.cast_one, one_mul], rfl⟩

/-- A point that is found is positive and not above the interval. -/
theorem of_nextPoint? {c : ℕ} (h : nextPoint? i num den = some c) : 0 < c ∧ c * den ≤ i.high * num := by
  unfold nextPoint? at h
  simp only at h
  split at h
  next hbelow habove =>
    simp only [Bool.and_eq_true, decide_eq_true_eq] at hbelow
    have hle := le_of_holds hbelow.1
    have hle' := le_of_holds habove
    cases h
    split
    next => exact ⟨Nat.pos_of_ne_zero hbelow.2, hle⟩
    next => exact ⟨Nat.succ_pos _, hle'⟩
  next hbelow habove =>
    simp only [Bool.and_eq_true, decide_eq_true_eq] at hbelow
    cases h
    exact ⟨Nat.pos_of_ne_zero hbelow.2, le_of_holds hbelow.1⟩
  next hbelow habove =>
    cases h
    exact ⟨Nat.succ_pos _, le_of_holds habove⟩
  next => cases h

/-- There is a point if the grid is finer than the unit of the interval. -/
theorem nextPoint?_isSome (hnum : den ≤ num) (hden : 0 < den) (hlow : i.low < i.value) (hhigh : i.value < i.high) :
    (nextPoint? i num den).isSome = true := by
  have hpos : 0 < num := hden.trans_le hnum
  have hfloor : i.value * num / den * den ≤ i.value * num := Nat.div_mul_le_self _ _
  have hceil : i.value * num < i.value * num / den * den + den := Nat.lt_div_mul_add hden
  have hstep : i.low * num + num ≤ i.value * num := by
    rw [← Nat.succ_mul]
    exact Nat.mul_le_mul_right _ hlow
  have hbelow : i.holds (i.value * num / den) num den = true :=
    holds_of_lt (by omega) (hfloor.trans_lt (Nat.mul_lt_mul_of_pos_right hhigh hpos))
  have hne : i.value * num / den ≠ 0 := by
    refine (Nat.div_pos ?_ hden).ne'
    exact hnum.trans (Nat.le_mul_of_pos_left _ (by omega))
  unfold nextPoint?
  simp only [hbelow, hne, ne_eq, not_false_eq_true, decide_true, Bool.and_true]
  split <;> simp_all

theorem of_gridPoint? {c : ℕ} (h : gridPoint? i unit place = some c) :
    0 < c ∧ (c : ℚ) * 10 ^ place ≤ i.high * 2 ^ unit := by
  obtain ⟨num, den, hden, hunit, heq⟩ := gridPoint?_eq i unit place
  rw [heq] at h
  obtain ⟨hpos, hle⟩ := of_nextPoint? h
  refine ⟨hpos, ?_⟩
  have hle : (c : ℚ) * den ≤ i.high * num := by exact_mod_cast hle
  have hden : (0 : ℚ) < den := by exact_mod_cast hden
  calc (c : ℚ) * 10 ^ place = c * den / den * 10 ^ place := by rw [mul_div_cancel_right₀ _ hden.ne']
    _ ≤ i.high * num / den * 10 ^ place := by gcongr
    _ = i.high * 2 ^ unit := by rw [mul_div_assoc, hunit]; field_simp

theorem gridPoint?_isSome (h : (10 : ℚ) ^ place ≤ 2 ^ unit) (hlow : i.low < i.value) (hhigh : i.value < i.high) :
    (gridPoint? i unit place).isSome = true := by
  obtain ⟨num, den, hden, hunit, heq⟩ := gridPoint?_eq i unit place
  rw [heq]
  refine nextPoint?_isSome ?_ hden hlow hhigh
  have hone : (1 : ℚ) ≤ num / den := by rwa [hunit, one_le_div (by positivity)]
  rw [one_le_div (by exact_mod_cast hden)] at hone
  exact_mod_cast hone

/-- The search along the grids ends at a point if one of them has one. -/
theorem of_firstGrid (h : ∃ j < fuel, (gridPoint? i unit (place - j)).isSome = true) :
    ∃ c k, firstGrid i unit fuel place = ⟨c, k⟩ ∧ gridPoint? i unit k = some c := by
  induction fuel generalizing place with
  | zero =>
    obtain ⟨j, hj, -⟩ := h
    omega
  | succ fuel ih =>
    unfold firstGrid
    split
    next c hc => exact ⟨c, place, rfl, hc⟩
    next hnone =>
      refine ih ?_
      obtain ⟨j, hj, hsome⟩ := h
      cases j with
      | zero => simp [hnone] at hsome
      | succ j =>
        refine ⟨j, by omega, ?_⟩
        rwa [show place - 1 - (j : ℤ) = place - ((j + 1 : ℕ) : ℤ) by push_cast; ring]

theorem value_strip (d : Decimal) (fuel : ℕ) : (strip d fuel).value = d.value := by
  induction fuel generalizing d with
  | zero => rfl
  | succ fuel ih =>
    unfold strip
    split
    next h =>
      obtain ⟨c, hc⟩ := Nat.dvd_of_mod_eq_zero h.2
      rw [ih, value, value, hc]
      simp [zpow_add₀, mul_comm, mul_assoc]
    next => rfl

variable {b : Binary}

/-- The digits of a double begin no more than 400 places below where the search for them begins. -/
theorem start_le (hm : 0 < b.significand) (hsmall : b.significand < 2 ^ 53) (hleast : -1074 ≤ b.exponent)
    (hmost : b.exponent ≤ 971) :
    (10 : ℚ) ^ ((b.significand.log2 + b.exponent) * 3 / 10 + 2 - (400 : ℕ)) ≤ b.magnitude := by
  have hlog : b.significand.log2 ≤ 52 := Nat.lt_succ_iff.mp ((Nat.log2_lt hm.ne').mpr hsmall)
  have hsignificand : (2 : ℚ) ^ (b.significand.log2 : ℤ) ≤ b.significand := by
    exact_mod_cast Nat.log2_self_le hm.ne'
  have hpower : (2 : ℚ) ^ (b.significand.log2 + b.exponent) ≤ b.magnitude := by
    rw [zpow_add₀ two_ne_zero, Binary.magnitude]
    gcongr
  refine le_trans ?_ hpower
  rcases le_or_gt 0 (b.significand.log2 + b.exponent) with h | h
  · calc (10 : ℚ) ^ ((b.significand.log2 + b.exponent) * 3 / 10 + 2 - (400 : ℕ)) ≤ 10 ^ (0 : ℤ) :=
        zpow_le_zpow_right₀ (by norm_num) (by omega)
      _ = 2 ^ (0 : ℤ) := by simp
      _ ≤ 2 ^ (b.significand.log2 + b.exponent) := zpow_le_zpow_right₀ (by norm_num) h
  · have hten : (2 : ℚ) ^ 1074 ≤ 10 ^ 398 :=
      calc (2 : ℚ) ^ 1074 ≤ 2 ^ (3 * 398) := pow_le_pow_right₀ (by norm_num) (by norm_num)
        _ = (2 ^ 3) ^ 398 := pow_mul _ _ _
        _ ≤ 10 ^ 398 := pow_le_pow_left₀ (by norm_num) (by norm_num) _
    calc (10 : ℚ) ^ ((b.significand.log2 + b.exponent) * 3 / 10 + 2 - (400 : ℕ)) ≤ 10 ^ (-398 : ℤ) :=
        zpow_le_zpow_right₀ (by norm_num) (by omega)
      _ = (10 ^ 398)⁻¹ := zpow_neg _ _
      _ ≤ (2 ^ 1074)⁻¹ := inv_anti₀ (by positivity) hten
      _ = 2 ^ (-1074 : ℤ) := (zpow_neg (2 : ℚ) 1074).symm
      _ ≤ 2 ^ (b.significand.log2 + b.exponent) := zpow_le_zpow_right₀ (by norm_num) (by omega)

/-- Seventeen places below the leading digit the grid is finer than a quarter of the unit. -/
theorem fine_grid {top : ℤ} (hsmall : b.significand < 2 ^ 53) (htop : (10 : ℚ) ^ top ≤ b.magnitude) :
    (10 : ℚ) ^ (top - (17 : ℕ)) ≤ 2 ^ (b.exponent - 2) := by
  have hcast : (b.significand : ℚ) ≤ 2 ^ 53 := by exact_mod_cast hsmall.le
  rw [zpow_sub₀ (by norm_num), zpow_sub₀ (by norm_num), zpow_natCast]
  calc (10 : ℚ) ^ top / 10 ^ 17 ≤ 2 ^ 53 * 2 ^ b.exponent / 10 ^ 17 := by
        gcongr
        exact htop.trans (mul_le_mul_of_nonneg_right hcast (by positivity))
    _ = 2 ^ b.exponent * (2 ^ 53 / 10 ^ 17) := by ring
    _ ≤ 2 ^ b.exponent * (1 / 2 ^ (2 : ℤ)) := mul_le_mul_of_nonneg_left (by norm_num) (by positivity)
    _ = 2 ^ b.exponent / 2 ^ (2 : ℤ) := by ring

/-- The shortest decimal of a double is not zero and at most half a unit above it. -/
theorem shortest_le (hm : 0 < b.significand) (hsmall : b.significand < 2 ^ 53) (hleast : -1074 ≤ b.exponent)
    (hmost : b.exponent ≤ 971) :
    0 < (shortest b).digits ∧ (shortest b).value ≤ (b.significand + 1 / 2) * 2 ^ b.exponent := by
  obtain ⟨hpos, hratio⟩ := ratio_eq b.significand b.exponent rfl
  let start := (b.significand.log2 + b.exponent) * 3 / 10 + 2
  have hstart := start_le hm hsmall hleast hmost
  rw [Binary.magnitude, ← hratio] at hstart
  have htop := le_of_leadingPlace hpos hstart
  rw [hratio] at htop
  set top := leadingPlace _ _ 400 start
  have hlow : (Interval.of b).low < (Interval.of b).value := by
    simp only [Interval.of]
    split <;> omega
  have hhigh : (Interval.of b).value < (Interval.of b).high := by simp [Interval.of]
  have hgrid : ∃ j < 18, (gridPoint? (Interval.of b) (b.exponent - 2) (top - (j : ℕ))).isSome = true :=
    ⟨17, by norm_num, gridPoint?_isSome (fine_grid hsmall htop) hlow hhigh⟩
  obtain ⟨c, k, hfirst, hpoint⟩ := of_firstGrid hgrid
  obtain ⟨hc, hle⟩ := of_gridPoint? hpoint
  have hshortest : shortest b = strip (firstGrid (Interval.of b) (b.exponent - 2) 18 top) 20 := if_neg hm.ne'
  have hvalue : (shortest b).value = c * 10 ^ k := by
    rw [hshortest, value_strip, hfirst]
    rfl
  have hpositive : 0 < (shortest b).value := by
    rw [hvalue]
    positivity
  refine ⟨Nat.pos_of_ne_zero fun hzero => ?_, ?_⟩
  · rw [value, hzero, Nat.cast_zero, zero_mul] at hpositive
    exact lt_irrefl _ hpositive
  · rw [hvalue]
    refine hle.trans_eq ?_
    rw [zpow_sub₀ two_ne_zero]
    simp only [Interval.of]
    push_cast
    ring

end Decimal

end DerivedSignal
