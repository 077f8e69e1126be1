import DerivedSignal.Json.Printer
import DerivedSignal.Json.Reader
import DerivedSignal.Proofs.WrittenIntegers

namespace DerivedSignal

namespace Json

section Texts

/-- The code of a control character has the four digits that a reader expects. -/
theorem controlEscape_eq {c : Char} (h : c.toNat < 32) :
    ∃ p q r s, controlEscape c = ['\\', 'u', p, q, r, s] ∧ hexCode? p q r s = some c.toNat := by
  have hall : ∀ n < 32, ∃ p q r s, List.replicate (4 - (Nat.toDigits 16 n).length) '0' ++ Nat.toDigits 16 n =
      [p, q, r, s] ∧ hexCode? p q r s = some n := by
    intro n hn
    interval_cases n <;> exact ⟨_, _, _, _, rfl, by decide⟩
  obtain ⟨p, q, r, s, hdigits, hcode⟩ := hall c.toNat h
  exact ⟨p, q, r, s, by rw [controlEscape, hdigits], hcode⟩

/-- One character of a text is read from what is written for it. -/
theorem textCodes_escape (c : Char) (rest : List Char) :
    textCodes (escape c ++ rest) = (textCodes rest).map fun r => (c.toNat :: r.1, r.2) := by
  have hmap : ∀ code : ℕ, ((textCodes rest).bind fun r => some (code :: r.1, r.2)) =
      (textCodes rest).map fun r => (code :: r.1, r.2) := fun code => by cases textCodes rest <;> rfl
  unfold escape
  split_ifs with hquote hslash hback hform hfeed hreturn htab hcontrol
  · subst hquote
    simp [textCodes, hmap]
  · subst hslash
    simp [textCodes, hmap]
  · simp [textCodes, hmap, hback]
  · simp [textCodes, hmap, hform]
  · subst hfeed
    simp [textCodes, hmap]
  · subst hreturn
    simp [textCodes, hmap]
  · subst htab
    simp [textCodes, hmap]
  · obtain ⟨p, q, r, s, hescape, hcode⟩ := controlEscape_eq hcontrol
    rw [hescape]
    simp [textCodes, hcode, hmap]
  · rw [List.singleton_append, textCodes.eq_def]
    split <;> simp_all

theorem textCodes_flatMap_escape (cs rest : List Char) :
    textCodes (cs.flatMap escape ++ '\x22' :: rest) = some (cs.map Char.toNat, rest) := by
  induction cs with
  | nil => simp [textCodes]
  | cons c cs ih =>
    rw [List.flatMap_cons, List.append_assoc, textCodes_escape, ih]
    rfl

/-- No character is half of a surrogate pair. -/
theorem joinPairs_map_toNat (cs : List Char) : joinPairs (cs.map Char.toNat) = some cs := by
  have hwhole : ∀ c : Char, c.toNat < 0xd800 ∨ 0xdfff < c.toNat := fun c => c.valid.imp_right (·.1)
  induction cs with
  | nil => rfl
  | cons c cs ih =>
    have hc := hwhole c
    cases cs with
    | nil =>
      rw [List.map_cons, List.map_nil, joinPairs, if_neg (by omega), Char.ofNat_toNat]
    | cons d cs =>
      rw [List.map_cons] at ih
      rw [List.map_cons, List.map_cons, joinPairs, if_neg (by omega), if_neg (by omega), ih, Char.ofNat_toNat]
      rfl

/-- A text is read from what is written for it. -/
theorem readText_printText (s : String) : ∃ inside, (printText s).toList = '\x22' :: inside ∧
    ∀ rest, readText (inside ++ rest) = some (some s, rest) := by
  refine ⟨s.toList.flatMap escape ++ ['\x22'], by simp [printText], fun rest => ?_⟩
  rw [readText, List.append_assoc, List.singleton_append, textCodes_flatMap_escape]
  simp [joinPairs_map_toNat]

end Texts

section Numerals

variable {n : Numeral} {ds rest : List Char}

/-- A literal as it may stand in a document: a zero in front stands alone. -/
structure Numeral.Proper (n : Numeral) : Prop where
  whole_ne_nil : n.whole ≠ []
  whole : ∀ c ∈ n.whole, c.isDigit = true
  front : ∀ ds, n.whole = '0' :: ds → ds = []
  fraction : ∀ c ∈ n.fraction, c.isDigit = true

/-- What may follow a number: nothing that would belong to it. -/
def EndsNumber (rest : List Char) : Prop :=
  ∀ c t, rest = c :: t → c.isDigit = false ∧ c ≠ '.' ∧ c ≠ 'e' ∧ c ≠ 'E'

theorem digitRun_append (hds : ∀ c ∈ ds, c.isDigit = true)
    (hrest : ∀ c t, rest = c :: t → c.isDigit = false) : digitRun (ds ++ rest) = (ds, rest) := by
  rw [digitRun, List.span_eq_takeWhile_dropWhile, List.takeWhile_append_of_pos hds, List.dropWhile_append_of_pos hds]
  cases rest with
  | nil => simp
  | cons c t => simp [hrest c t rfl]

theorem digits_eq_ofDigitChars (ds : List Char) (n : ℕ) :
    ds.foldl (fun n c => n * 10 + Numeral.digit c) n = Nat.ofDigitChars 10 ds n := by
  induction ds generalizing n with
  | nil => rfl
  | cons d ds ih =>
    rw [List.foldl_cons, Nat.ofDigitChars_cons, ih, Nat.mul_comm]
    rfl

/-- An exponent is read behind its mark. -/
theorem readExponent_signed (e : ℤ) (hrest : EndsNumber rest) :
    readExponent ((if e < 0 then '-' else '+') :: Nat.toDigits 10 e.natAbs ++ rest) = some (e, rest) := by
  have hrun := digitRun_append (toDigits_isDigit e.natAbs) fun c t h => (hrest c t h).1
  have hsize : (Nat.toDigits 10 e.natAbs).foldl (fun n c => n * 10 + Numeral.digit c) 0 = e.natAbs := by
    rw [digits_eq_ofDigitChars, Nat.ofDigitChars_ten_toDigits]
  obtain ⟨d, ds, hds⟩ := List.exists_cons_of_ne_nil (Nat.toDigits_ne_nil (b := 10) (n := e.natAbs))
  rw [hds] at hrun hsize ⊢
  by_cases he : e < 0
  · simp only [if_pos he, List.cons_append, readExponent] at hrun ⊢
    simp only [hrun, hsize, if_true]
    rw [Int.ofNat_natAbs_of_nonpos he.le, neg_neg]
  · simp only [if_neg he, List.cons_append, readExponent] at hrun ⊢
    simp only [hrun, hsize, Bool.false_eq_true, if_false]
    rw [Int.natAbs_of_nonneg (not_lt.mp he)]

/-- The exponent of a literal with its mark and its sign. -/
def Numeral.marked (n : Numeral) : List Char :=
  match n.exponent with
  | none => []
  | some e => 'e' :: (if e < 0 then '-' else '+') :: Nat.toDigits 10 e.natAbs

/-- What stands behind the digits before the point. -/
def Numeral.behind (n : Numeral) : List Char :=
  match n.fraction with
  | [] => n.marked
  | c :: cs => '.' :: c :: cs ++ n.marked

theorem Numeral.toList_print (n : Numeral) :
    n.print.toList = (if n.negative then ['-'] else []) ++ (n.whole ++ n.behind) := by
  obtain ⟨negative, whole, fraction, exponent⟩ := n
  cases fraction <;> cases exponent <;> simp [print, behind, marked, Decimal.pointed]

theorem Numeral.marked_head (h : EndsNumber rest) {c : Char} {t : List Char} (heq : n.marked ++ rest = c :: t) :
    c.isDigit = false ∧ c ≠ '.' := by
  unfold marked at heq
  split at heq
  next => exact ⟨(h c t heq).1, (h c t heq).2.1⟩
  next =>
    cases heq
    exact ⟨rfl, by decide⟩

theorem Numeral.behind_head (h : EndsNumber rest) {c : Char} {t : List Char} (heq : n.behind ++ rest = c :: t) :
    c.isDigit = false := by
  unfold behind at heq
  split at heq
  next => exact (marked_head h heq).1
  next =>
    cases heq
    rfl

/-- The sign and what follows it. -/
def signOf : List Char → Bool × List Char
  | '-' :: rest => (true, rest)
  | s => (false, s)

/-- The digits behind a point, if there is one. -/
def readFraction : List Char → Option (List Char × List Char)
  | '.' :: rest =>
    match digitRun rest with
    | ([], _) => none
    | (fraction, rest) => some (fraction, rest)
  | s => some ([], s)

/-- The exponent, if there is one. -/
def readMarked : List Char → Option (Option ℤ × List Char)
  | 'e' :: rest | 'E' :: rest => (readExponent rest).map fun (e, rest) => (some e, rest)
  | s => some (none, s)

theorem readMarked_cases {s : List Char} {exponent : Option ℤ} (h : readMarked s = some (exponent, rest)) :
    (∃ t e, (s = 'e' :: t ∨ s = 'E' :: t) ∧ readExponent t = some (e, rest) ∧ exponent = some e) ∨
      (∀ t, s ≠ 'e' :: t) ∧ (∀ t, s ≠ 'E' :: t) ∧ s = rest ∧ exponent = none := by
  have hbehind : ∀ t, ((readExponent t).map fun r => (some r.1, r.2)) = some (exponent, rest) →
      ∃ e, readExponent t = some (e, rest) ∧ exponent = some e := by
    intro t ht
    obtain ⟨⟨e, left⟩, hread, hpair⟩ := Option.map_eq_some_iff.mp ht
    cases hpair
    exact ⟨e, hread, rfl⟩
  unfold readMarked at h
  split at h
  next t =>
    obtain ⟨e, hread, hexponent⟩ := hbehind t h
    exact .inl ⟨t, e, .inl rfl, hread, hexponent⟩
  next t =>
    obtain ⟨e, hread, hexponent⟩ := hbehind t h
    exact .inl ⟨t, e, .inr rfl, hread, hexponent⟩
  next hlower hupper =>
    cases h
    exact .inr ⟨hlower, hupper, rfl, rfl⟩

theorem readNumeral_of {s unsigned whole behind fraction left rest : List Char} {negative : Bool}
    {exponent : Option ℤ}
    (hsign : signOf s = (negative, unsigned)) (hrun : digitRun unsigned = (whole, behind)) (hne : whole ≠ [])
    (hzero : ∀ d ds, whole ≠ '0' :: d :: ds) (hfraction : readFraction behind = some (fraction, left))
    (hmark : readMarked left = some (exponent, rest)) :
    readNumeral s = some (⟨negative, whole, fraction, exponent⟩, rest) := by
  unfold readNumeral
  split
  next negative' unsigned' heq =>
  have hsame : signOf s = (negative', unsigned') := by
    rw [← heq]
    cases s with
    | nil => rfl
    | cons c t =>
      by_cases hc : c = '-'
      · subst hc
        rfl
      · simp [signOf, hc]
  cases hsame.symm.trans hsign
  rw [hrun]
  split
  next heq => exact absurd (Prod.mk.inj heq).1 hne
  next heq => exact absurd (Prod.mk.inj heq).1 (hzero _ _)
  next heq =>
    cases heq
    unfold readFraction at hfraction
    split at hfraction
    next =>
      split at hfraction
      next => cases hfraction
      next hdigits =>
        cases hfraction
        rcases readMarked_cases hmark with ⟨t, e, rfl | rfl, he, rfl⟩ | ⟨hlower, hupper, rfl, rfl⟩ <;> simp_all
    next =>
      cases hfraction
      rcases readMarked_cases hmark with ⟨t, e, rfl | rfl, he, rfl⟩ | ⟨hlower, hupper, rfl, rfl⟩ <;> simp_all

theorem readMarked_marked (h : EndsNumber rest) : readMarked (n.marked ++ rest) = some (n.exponent, rest) := by
  unfold Numeral.marked
  split
  next heq =>
    rw [heq, List.nil_append]
    unfold readMarked
    split
    next => exact absurd rfl (h _ _ rfl).2.2.1
    next => exact absurd rfl (h _ _ rfl).2.2.2
    next => rfl
  next e heq =>
    rw [heq, List.cons_append, readMarked, readExponent_signed e h]
    rfl

theorem readFraction_behind (h : n.Proper) (hrest : EndsNumber rest) :
    readFraction (n.behind ++ rest) = some (n.fraction, n.marked ++ rest) := by
  unfold Numeral.behind
  split
  next heq =>
    unfold readFraction
    split
    next hpoint => exact absurd rfl (Numeral.marked_head hrest hpoint).2
    next => rw [heq]
  next c cs heq =>
    have hrun : digitRun (c :: cs ++ (n.marked ++ rest)) = (c :: cs, n.marked ++ rest) :=
      digitRun_append (heq ▸ h.fraction) fun _ _ h => (Numeral.marked_head hrest h).1
    simp only [List.cons_append, List.append_assoc] at hrun ⊢
    rw [readFraction, hrun, heq]

/-- A literal is read from what is written for it. -/
theorem readNumeral_print (h : n.Proper) (hrest : EndsNumber rest) :
    readNumeral (n.print.toList ++ rest) = some (n, rest) := by
  have hrun : digitRun (n.whole ++ (n.behind ++ rest)) = (n.whole, n.behind ++ rest) :=
    digitRun_append h.whole fun _ _ => Numeral.behind_head hrest
  have hzero : ∀ d ds, n.whole ≠ '0' :: d :: ds := fun d ds heq => by cases h.front _ heq
  have hsign : signOf (n.print.toList ++ rest) = (n.negative, n.whole ++ (n.behind ++ rest)) := by
    obtain ⟨w, ws, hw⟩ := List.exists_cons_of_ne_nil h.whole_ne_nil
    have hminus : w ≠ '-' := ne_of_isDigit (h.whole w (hw ▸ List.mem_cons_self)) rfl
    rw [Numeral.toList_print, hw]
    cases n.negative <;> simp [signOf, hminus]
  exact readNumeral_of hsign hrun h.whole_ne_nil hzero (readFraction_behind h hrest) (readMarked_marked hrest)

end Numerals

end Json

end DerivedSignal
