import DerivedSignal.Toml.Scalar
import Mathlib

namespace DerivedSignal

/-- The digits of a positive number do not begin with a zero. -/
theorem toDigits_eq_cons {n : ℕ} (h : 0 < n) : ∃ d ds, Nat.toDigits 10 n = d :: ds ∧ d ≠ '0' := by
  induction n using Nat.strong_induction_on with
  | h n ih =>
    rw [Nat.toDigits_eq_if (by norm_num)]
    split
    next hsmall => exact ⟨n.digitChar, [], rfl, fun hzero => by have := Nat.digitChar_eq_zero.mp hzero; omega⟩
    next hlarge =>
      obtain ⟨d, ds, hds, hd⟩ := ih (n / 10) (by omega) (by omega)
      exact ⟨d, ds ++ [(n % 10).digitChar], by rw [hds]; rfl, hd⟩

theorem toDigits_isDigit (n : ℕ) : ∀ c ∈ Nat.toDigits 10 n, c.isDigit = true := fun _ hc =>
  Nat.isDigit_of_mem_toDigits (by norm_num) le_rfl hc

theorem ne_of_isDigit {c d : Char} (hc : c.isDigit = true) (hd : d.isDigit = false) : c ≠ d := by
  rintro rfl
  rw [hc] at hd
  cases hd

namespace Toml

theorem hexDigit?_of_isDigit {c : Char} (h : c.isDigit = true) : hexDigit? c = some (c.toNat - 48) := by
  have hrange : 48 ≤ c.toNat ∧ c.toNat ≤ 57 := by
    simpa [Char.isDigit, UInt32.le_iff_toNat_le] using h
  simp [hexDigit?, hrange]

theorem number_eq_ofDigitChars {digits : List Char} (h : ∀ c ∈ digits, c.isDigit = true) (n : ℕ) :
    digits.foldl (fun n c => n * 10 + (hexDigit? c).getD 0) n = Nat.ofDigitChars 10 digits n := by
  induction digits generalizing n with
  | nil => rfl
  | cons c digits ih =>
    obtain ⟨hc, hdigits⟩ := List.forall_mem_cons.mp h
    rw [List.foldl_cons, Nat.ofDigitChars_cons, hexDigit?_of_isDigit hc, ih hdigits, Nat.mul_comm]
    rfl

theorem number_toDigits (n : ℕ) : number 10 (Nat.toDigits 10 n) = n := by
  rw [number, number_eq_ofDigitChars (toDigits_isDigit n), Nat.ofDigitChars_ten_toDigits]

theorem moreDigits_append {ds : List Char} (h : ∀ c ∈ ds, c.isDigit = true) (rest : List Char) :
    moreDigits Char.isDigit (ds ++ '\n' :: rest) = (ds, '\n' :: rest) := by
  induction ds with
  | nil => simp [moreDigits]
  | cons d ds ih =>
    obtain ⟨hd, hds⟩ := List.forall_mem_cons.mp h
    have hunderscore : d ≠ '_' := ne_of_isDigit hd rfl
    rw [List.cons_append, moreDigits]
    · simp [hd, ih hds]
    · exact fun _ _ he => absurd he hunderscore

theorem within?_eq_none {digits : List Char} {c : Char} (hc : c ∈ digits) (h : c.isDigit = false) (low high : ℕ) :
    within? digits low high = none := by
  have hall : digits.all Char.isDigit = false := List.all_eq_false.mpr ⟨c, hc, by simp [h]⟩
  simp [within?, hall]

variable {ds : List Char}

/-- A number at the end of a line is no date: its year would have four digits and a hyphen behind them. -/
theorem date?_digits (h : ∀ c ∈ ds, c.isDigit = true) (rest : List Char) : date? (ds ++ '\n' :: rest) = none := by
  unfold date?
  split
  next a b c d e f g i tail heq =>
    have hyear : '\n' ∈ [a, b, c, d] ∨ '-' ∈ ds := by
      match ds with
      | [] | [_] | [_, _] | [_, _, _] | [_, _, _, _] | _ :: _ :: _ :: _ :: _ :: _ => grind
    rcases hyear with hyear | hhyphen
    · rw [within?_eq_none hyear rfl]
      rfl
    · cases h _ hhyphen
  next => rfl

/-- It is no time either, whose hour would have two digits and a colon behind them. -/
theorem time?_digits (h : ∀ c ∈ ds, c.isDigit = true) (rest : List Char) : time? (ds ++ '\n' :: rest) = none := by
  unfold time?
  split
  next a b c d e f tail heq =>
    have hhour : '\n' ∈ [a, b] ∨ ':' ∈ ds := by
      match ds with
      | [] | [_] | [_, _] | _ :: _ :: _ :: _ => grind
    rcases hhour with hhour | hcolon
    · rw [within?_eq_none hhour rfl]
      rfl
    · cases h _ hcolon
  next => rfl

theorem digits?_append {d : Char} (h : ∀ c ∈ d :: ds, c.isDigit = true) (rest : List Char) :
    digits? Char.isDigit (d :: ds ++ '\n' :: rest) = some (d :: ds, '\n' :: rest) := by
  obtain ⟨hd, hds⟩ := List.forall_mem_cons.mp h
  rw [List.cons_append, digits?, if_pos hd, moreDigits_append hds]

/-- Digits that do not begin with a zero are a decimal number without a fraction or an exponent. -/
theorem whole?_toDigits (n : ℕ) (rest : List Char) :
    whole? (Nat.toDigits 10 n ++ '\n' :: rest) = some (Nat.toDigits 10 n, '\n' :: rest) := by
  rcases Nat.eq_zero_or_pos n with rfl | hn
  · rfl
  · obtain ⟨d, ds, hds, hd⟩ := toDigits_eq_cons hn
    have hdigits := toDigits_isDigit n
    rw [hds] at hdigits ⊢
    rw [List.cons_append, whole?]
    · exact digits?_append hdigits rest
    · exact fun _ he => absurd (List.cons.inj he).1 hd

theorem decimal?_toDigits {n : ℕ} (h : (n : ℤ) ≤ greatestInteger) (rest : List Char) :
    decimal? false (Nat.toDigits 10 n ++ '\n' :: rest) = some (.integer n, '\n' :: rest) := by
  have hrange : integer? (n : ℤ) = some (.integer n) := by
    have hlow : leastInteger ≤ (n : ℤ) := by unfold leastInteger; omega
    simp [integer?, inIntegerRange?, h, hlow]
  simp [decimal?, whole?_toDigits, exponent?, number_toDigits, hrange]

/-- A number at the end of a line is read as the integer that it is. -/
theorem readMeasure?_toDigits {n : ℕ} (h : (n : ℤ) ≤ greatestInteger) (rest : List Char) :
    readMeasure? (Nat.toDigits 10 n ++ '\n' :: rest) = some (.integer n, '\n' :: rest) := by
  have hdigits := toDigits_isDigit n
  have hmoment : moment? (Nat.toDigits 10 n ++ '\n' :: rest) = none := by
    rw [moment?, date?_digits hdigits, time?_digits hdigits]
  rw [readMeasure?, hmoment]
  rcases Nat.eq_zero_or_pos n with rfl | hn
  · exact decimal?_toDigits h rest
  · obtain ⟨d, ds, hds, hd⟩ := toDigits_eq_cons hn
    have hdecimal := decimal?_toDigits h rest
    rw [hds] at hdigits hdecimal ⊢
    have hfirst : d.isDigit = true := hdigits d List.mem_cons_self
    have hsign : d ≠ '+' ∧ d ≠ '-' ∧ d ≠ 'i' ∧ d ≠ 'n' :=
      ⟨ne_of_isDigit hfirst rfl, ne_of_isDigit hfirst rfl, ne_of_isDigit hfirst rfl, ne_of_isDigit hfirst rfl⟩
    simp only [readNumber?, signed?, List.cons_append] at hdecimal ⊢
    split <;> simp_all

end Toml

end DerivedSignal
