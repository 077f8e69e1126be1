import DerivedSignal.Toml.Scalar
import DerivedSignal.Toml.Writer
import Mathlib

namespace DerivedSignal

namespace Toml

/-- How a character stands in a text in which a backslash begins an escape. -/
inductive Written (c : Char) : List Char → Prop
  | plain (hplain : isPlain c = true) (hbackslash : c ≠ '\\') (hquote : c ≠ '\x22') : Written c [c]
  | short (e : Char) (h : shortEscape? e = some c) : Written c ['\\', e]
  | code (a b d e : Char) (h : codePoint? [a, b, d, e] = some c) : Written c ['\\', 'u', a, b, d, e]

theorem shortEscape?_cases {e c : Char} (h : shortEscape? e = some c) :
    (e, c) ∈ [('b', '\x08'), ('t', '\t'), ('n', '\n'), ('f', '\x0c'), ('r', '\x0d'), ('\x22', '\x22'), ('\\', '\\')] := by
  unfold shortEscape? at h
  split at h <;> cases h <;> simp

theorem basicText_written {c : Char} {w : List Char} (h : Written c w) (s : List Char) :
    basicText (w ++ s) = prepend c (basicText s) := by
  cases h with
  | plain hplain hbackslash hquote => simp [basicText, hplain, hbackslash]
  | short e h =>
    have hcases := shortEscape?_cases h
    simp only [List.mem_cons, Prod.mk.injEq, List.not_mem_nil, or_false] at hcases
    rcases hcases with ⟨rfl, rfl⟩ | ⟨rfl, rfl⟩ | ⟨rfl, rfl⟩ | ⟨rfl, rfl⟩ | ⟨rfl, rfl⟩ | ⟨rfl, rfl⟩ | ⟨rfl, rfl⟩ <;>
      simp [basicText, shortEscape?]
  | code a b d e h => simp [basicText, h]

theorem basicLines_written {c : Char} {w : List Char} (h : Written c w) (s : List Char) :
    basicLines false (w ++ s) = prepend c (basicLines false s) := by
  cases h with
  | plain hplain hbackslash hquote =>
    have hreturn : c ≠ '\x0d' := by
      rintro rfl
      cases hplain
    simp [basicLines, hplain, hbackslash, hquote, hreturn]
  | short e h =>
    have hcases := shortEscape?_cases h
    simp only [List.mem_cons, Prod.mk.injEq, List.not_mem_nil, or_false] at hcases
    rcases hcases with ⟨rfl, rfl⟩ | ⟨rfl, rfl⟩ | ⟨rfl, rfl⟩ | ⟨rfl, rfl⟩ | ⟨rfl, rfl⟩ | ⟨rfl, rfl⟩ | ⟨rfl, rfl⟩ <;>
      simp [basicLines, shortEscape?, skipBlanks, isBlank, newline?]
  | code a b d e h => simp [basicLines, h]

/-- The four digits of a control character. -/
def codeDigits (n : ℕ) : List Char :=
  let digits := (Nat.toDigits 16 n).map Char.toUpper
  List.replicate (4 - digits.length) '0' ++ digits

theorem codePoint?_codeDigits : ∀ n < 128,
    (codeDigits n).length = 4 ∧ codePoint? (codeDigits n) = some (Char.ofNat n) := by
  decide +kernel

theorem written_code {c : Char} (h : isControl c = true) : Written c ('\\' :: 'u' :: codeDigits c.toNat) := by
  have hsmall : c.toNat < 128 := by
    simp only [isControl, Bool.or_eq_true, Bool.and_eq_true, decide_eq_true_eq] at h
    omega
  obtain ⟨hlength, hcode⟩ := codePoint?_codeDigits c.toNat hsmall
  obtain ⟨a, b, d, e, hdigits⟩ := List.length_eq_four.mp hlength
  rw [hdigits, Char.ofNat_toNat] at hcode
  rw [hdigits]
  exact .code a b d e hcode

theorem isPlain_of_not_isControl {c : Char} (h : isControl c = false) (hfeed : c ≠ '\n') : isPlain c = true := by
  simp only [isControl, isPlain, Bool.or_eq_false_iff, Bool.and_eq_false_iff, Bool.or_eq_true, Bool.and_eq_true,
    decide_eq_true_eq, decide_eq_false_iff_not, not_not] at h ⊢
  obtain ⟨(hlow | htab) | hfeed', hdelete⟩ := h
  · exact .inr ⟨by omega, hdelete⟩
  · exact .inl htab
  · exact absurd hfeed' hfeed

theorem written_escapeChar {c : Char} (hquote : c ≠ '\x22') (hfeed : c ≠ '\n') : Written c (escapeChar c) := by
  unfold escapeChar
  split
  next h => exact h ▸ .short 't' rfl
  next =>
    split
    next h => exact h ▸ .short '\\' rfl
    next hbackslash =>
      split
      next h => exact (Char.toNat_inj.mp (show c.toNat = '\x08'.toNat from h)) ▸ .short 'b' rfl
      next =>
        split
        next h => exact (Char.toNat_inj.mp (show c.toNat = '\x0c'.toNat from h)) ▸ .short 'f' rfl
        next =>
          split
          next h => exact h ▸ .short 'r' rfl
          next =>
            split
            next h => exact written_code h
            next h => exact .plain (isPlain_of_not_isControl (by simpa using h) hfeed) hbackslash hquote

/-- Between double quotes on one line any text is read back. -/
theorem basicText_escapeText (cs rest : List Char) : basicText (escapeText cs ++ '\x22' :: rest) = some (cs, rest) := by
  induction cs with
  | nil => simp [escapeText, basicText]
  | cons c cs ih =>
    have hwritten : Written c
        (if c = '\x22' then ['\\', '\x22'] else if c = '\n' then ['\\', 'n'] else escapeChar c) := by
      split
      next h => exact h ▸ .short '\x22' rfl
      next hquote =>
        split
        next h => exact h ▸ .short 'n' rfl
        next hfeed => exact written_escapeChar hquote hfeed
    rw [escapeText, List.flatMap_cons, List.append_assoc, basicText_written hwritten, ← escapeText, ih]
    rfl

/-- Between apostrophes on one line a text without an apostrophe, a line feed or a control character is read
back. -/
theorem literalText_append {cs : List Char} (hplain : ∀ c ∈ cs, isPlain c = true) (hmark : '\x27' ∉ cs)
    (rest : List Char) : literalText (cs ++ '\x27' :: rest) = some (cs, rest) := by
  induction cs with
  | nil => simp [literalText]
  | cons c cs ih =>
    obtain ⟨hc, hplain⟩ := List.forall_mem_cons.mp hplain
    have hne : c ≠ '\x27' := fun h => hmark (h ▸ List.mem_cons_self)
    simp [literalText, hc, ih hplain fun h => hmark (List.mem_cons_of_mem c h), prepend]

/-- Some quote marks and three that end the text. -/
theorem closing_replicate {mark : Char} (hmark : mark ≠ '\n') {k : ℕ} (hk : k ≤ 2) (rest : List Char) :
    closing mark (List.replicate k mark ++ '\n' :: rest) = (List.replicate k mark, '\n' :: rest) := by
  interval_cases k <;> cases rest <;> simp [closing, hmark.symm, List.replicate]

theorem basicLines_end {k : ℕ} (hk : k ≤ 2) (rest : List Char) :
    basicLines false (List.replicate k '\x22' ++ ('\x22' :: '\x22' :: '\x22' :: '\n' :: rest)) =
      some (List.replicate k '\x22', '\n' :: rest) := by
  have hshift : List.replicate k '\x22' ++ ('\x22' :: '\x22' :: '\x22' :: '\n' :: rest) =
      '\x22' :: '\x22' :: '\x22' :: (List.replicate k '\x22' ++ '\n' :: rest) := by
    interval_cases k <;> rfl
  rw [hshift, basicLines, closing_replicate (by decide) hk]

theorem basicLines_mark {s : List Char} (h : ∀ t, s ≠ '\x22' :: '\x22' :: t) :
    basicLines false ('\x22' :: s) = prepend '\x22' (basicLines false s) := by
  rw [basicLines]
  · simp [isPlain]
  · exact fun t _ ht => h t ht
  all_goals simp

theorem basicLines_feed (s : List Char) : basicLines false ('\n' :: s) = prepend '\n' (basicLines false s) := by
  simp [basicLines]

/-- Neither a quote mark nor a line end begins what is written for another character. -/
theorem Written.eq_cons {c : Char} {w : List Char} (h : Written c w) :
    ∃ b t, w = b :: t ∧ b ≠ '\x22' ∧ b ≠ '\n' ∧ b ≠ '\x0d' := by
  cases h with
  | plain hplain _ hquote =>
    refine ⟨c, [], rfl, hquote, ?_, ?_⟩ <;> rintro rfl <;> cases hplain
  | short e => exact ⟨'\\', [e], rfl, by decide, by decide, by decide⟩
  | code a b d e => exact ⟨'\\', ['u', a, b, d, e], rfl, by decide, by decide, by decide⟩

theorem escapeChar_eq_cons {c : Char} (hquote : c ≠ '\x22') : ∃ b t, escapeChar c = b :: t ∧ b ≠ '\x22' := by
  by_cases hfeed : c = '\n'
  · subst hfeed
    exact ⟨'\n', [], rfl, by decide⟩
  · obtain ⟨b, t, ht, hb, -⟩ := (written_escapeChar hquote hfeed).eq_cons
    exact ⟨b, t, ht, hb⟩

/-- Behind two marks the next one is written by an escape, so that one in front ends the text. -/
theorem eq_nil_of_escapeLines {run : ℕ} (hrun : 2 ≤ run) {cs s t : List Char}
    (h : escapeLines run cs ++ s = '\x22' :: t) : cs = [] := by
  cases cs with
  | nil => rfl
  | cons c cs =>
    rw [escapeLines] at h
    by_cases hquote : c = '\x22'
    · rw [if_pos hquote, if_pos hrun] at h
      cases h
    · rw [if_neg hquote] at h
      obtain ⟨b, w, hw, hb⟩ := escapeChar_eq_cons hquote
      rw [hw] at h
      exact absurd (List.cons.inj h).1 hb

/-- Behind one mark two others in front are the end of the text, or its last mark and the end. -/
theorem of_escapeLines_marks {run : ℕ} (hrun : 1 ≤ run) {cs s t : List Char}
    (h : escapeLines run cs ++ s = '\x22' :: '\x22' :: t) : cs = [] ∨ cs = ['\x22'] ∧ run = 1 := by
  cases cs with
  | nil => exact .inl rfl
  | cons c cs =>
    rw [escapeLines] at h
    by_cases hquote : c = '\x22'
    · rw [if_pos hquote] at h
      split at h
      next => cases h
      next hlt =>
        have hnext := eq_nil_of_escapeLines (by omega) (List.cons.inj h).2
        exact .inr ⟨by rw [hquote, hnext], by omega⟩
    · rw [if_neg hquote] at h
      obtain ⟨b, w, hw, hb⟩ := escapeChar_eq_cons hquote
      rw [hw] at h
      exact absurd (List.cons.inj h).1 hb

/-- Between three double quotes any text is read back. The marks before `cs` may be up to two. -/
theorem basicLines_escapeLines (run : ℕ) (cs rest : List Char) :
    basicLines false (escapeLines run cs ++ ('\x22' :: '\x22' :: '\x22' :: '\n' :: rest)) =
      some (cs, '\n' :: rest) := by
  induction cs generalizing run with
  | nil => exact basicLines_end (Nat.zero_le 2) rest
  | cons c cs ih =>
    by_cases hquote : c = '\x22'
    · subst hquote
      rw [escapeLines, if_pos rfl]
      split
      next =>
        rw [show '\\' :: '\x22' :: escapeLines 0 cs = ['\\', '\x22'] ++ escapeLines 0 cs from rfl, List.append_assoc,
          basicLines_written (.short '\x22' rfl), ih]
        rfl
      next hrun =>
        -- Three marks stand together only if this one or the next is the last of the text.
        by_cases hmarks : ∃ t, escapeLines (run + 1) cs ++ ('\x22' :: '\x22' :: '\x22' :: '\n' :: rest) = '\x22' :: '\x22' :: t
        · obtain ⟨t, ht⟩ := hmarks
          rcases of_escapeLines_marks (Nat.le_add_left 1 run) ht with rfl | ⟨rfl, hone⟩
          · exact basicLines_end (k := 1) (by omega) rest
          · rw [hone]
            exact basicLines_end (k := 2) le_rfl rest
        · rw [List.cons_append, basicLines_mark fun t ht => hmarks ⟨t, ht⟩, ih]
          rfl
    · rw [escapeLines, if_neg hquote, List.append_assoc]
      by_cases hfeed : c = '\n'
      · subst hfeed
        rw [show escapeChar '\n' = ['\n'] from rfl, List.singleton_append, basicLines_feed, ih]
        rfl
      · rw [basicLines_written (written_escapeChar hquote hfeed), ih]
        rfl

theorem literalLines_end {k : ℕ} (hk : k ≤ 2) (rest : List Char) :
    literalLines (List.replicate k '\x27' ++ ('\x27' :: '\x27' :: '\x27' :: '\n' :: rest)) =
      some (List.replicate k '\x27', '\n' :: rest) := by
  have hshift : List.replicate k '\x27' ++ ('\x27' :: '\x27' :: '\x27' :: '\n' :: rest) =
      '\x27' :: '\x27' :: '\x27' :: (List.replicate k '\x27' ++ '\n' :: rest) := by
    interval_cases k <;> rfl
  rw [hshift, literalLines, closing_replicate (by decide) hk]

theorem literalLines_cons {c : Char} (hc : isPlain c = true ∨ c = '\n') {s : List Char}
    (h : c = '\x27' → ∀ t, s ≠ '\x27' :: '\x27' :: t) :
    literalLines (c :: s) = prepend c (literalLines s) := by
  have hreturn : c ≠ '\x0d' := by
    rintro rfl
    simp [isPlain] at hc
  rw [literalLines]
  · simp [hc]
  · exact fun t hc ht => h hc t ht
  · exact fun _ hc => absurd hc hreturn

theorem longestRun_mono {mark : Char} {i j : ℕ} (h : i ≤ j) (cs : List Char) :
    longestRun mark i cs ≤ longestRun mark j cs := by
  induction cs generalizing i j with
  | nil => exact h
  | cons c cs ih =>
    unfold longestRun
    split
    next => exact ih (Nat.succ_le_succ h)
    next => exact max_le_max h le_rfl

theorem le_longestRun (mark : Char) (k : ℕ) (cs : List Char) : k ≤ longestRun mark k cs := by
  induction cs generalizing k with
  | nil => exact le_rfl
  | cons c cs ih =>
    unfold longestRun
    split
    next => exact (Nat.le_succ k).trans (ih (k + 1))
    next => exact le_max_left _ _

theorem longestRun_tail (mark c : Char) (cs : List Char) : longestRun mark 0 cs ≤ longestRun mark 0 (c :: cs) := by
  rw [longestRun]
  split
  next => exact longestRun_mono (Nat.zero_le 1) cs
  next => exact le_max_right _ _

/-- Between three apostrophes a text without control characters and without three apostrophes in a row is read
back. -/
theorem literalLines_append {cs : List Char} (hplain : ∀ c ∈ cs, isPlain c = true ∨ c = '\n')
    (hrun : longestRun '\x27' 0 cs ≤ 2) (rest : List Char) :
    literalLines (cs ++ ('\x27' :: '\x27' :: '\x27' :: '\n' :: rest)) = some (cs, '\n' :: rest) := by
  induction cs with
  | nil => exact literalLines_end (Nat.zero_le 2) rest
  | cons c cs ih =>
    obtain ⟨hc, hplain⟩ := List.forall_mem_cons.mp hplain
    have hread := ih hplain ((longestRun_tail '\x27' c cs).trans hrun)
    by_cases hmarks : c = '\x27' ∧ ∃ t, cs ++ ('\x27' :: '\x27' :: '\x27' :: '\n' :: rest) = '\x27' :: '\x27' :: t
    · -- Three apostrophes stand together only if this one or the next is the last of the text.
      obtain ⟨rfl, t, ht⟩ := hmarks
      match cs with
      | [] => exact literalLines_end (k := 1) (by omega) rest
      | [d] =>
        obtain rfl : d = '\x27' := (List.cons.inj ht).1
        exact literalLines_end (k := 2) le_rfl rest
      | d :: e :: cs =>
        obtain rfl : d = '\x27' := (List.cons.inj ht).1
        obtain rfl : e = '\x27' := (List.cons.inj (List.cons.inj ht).2).1
        have hthree := le_longestRun '\x27' (0 + 1 + 1 + 1) cs
        simp only [longestRun, if_true] at hrun
        omega
    · rw [List.cons_append, literalLines_cons hc fun h t ht => hmarks ⟨h, t, ht⟩, hread]
      rfl

theorem longestRun_pos {mark : Char} {cs : List Char} (h : mark ∈ cs) : 0 < longestRun mark 0 cs := by
  induction cs with
  | nil => cases h
  | cons c cs ih =>
    rcases List.mem_cons.mp h with rfl | h
    · rw [longestRun, if_pos rfl]
      exact le_longestRun mark 1 cs
    · exact (ih h).trans_le (longestRun_tail mark c cs)

theorem Traits.of_literal {t : Traits} (h : t.form = .literal) :
    t.controls = false ∧ t.apostrophes = 0 ∧ t.lineFeeds = false := by
  unfold form at h
  split at h
  next => cases h
  next =>
    split at h
    next hliteral => simpa [and_assoc] using hliteral
    next =>
      repeat' split at h
      all_goals cases h

theorem Traits.of_literalLines {t : Traits} (h : t.form = .literalLines) :
    t.controls = false ∧ t.apostrophes ≤ 2 := by
  unfold form at h
  split at h
  next => cases h
  next =>
    split at h
    next => cases h
    next =>
      split at h
      next => cases h
      next =>
        split at h
        next hlines => simpa using hlines
        next => split at h <;> cases h

theorem isPlain_or_feed {s : List Char} (h : (Traits.of s).controls = false) :
    ∀ c ∈ s, isPlain c = true ∨ c = '\n' := by
  intro c hc
  by_cases hfeed : c = '\n'
  · exact .inr hfeed
  · exact .inl (isPlain_of_not_isControl (by simpa using List.any_eq_false.mp h c hc) hfeed)

/-- A mark that two others do not follow opens a text of one line. -/
theorem readText?_line {s : List Char} : ((∀ t, s ≠ '\x22' :: '\x22' :: t) →
      readText? ('\x22' :: s) = (basicText s).map fun r => (String.ofList r.1, r.2)) ∧
    ((∀ t, s ≠ '\x27' :: '\x27' :: t) →
      readText? ('\x27' :: s) = (literalText s).map fun r => (String.ofList r.1, r.2)) := by
  constructor <;> intro h <;> unfold readText? <;> split <;> simp_all

/-- Three marks open a text of several lines, from which a line end in front is left out. -/
theorem readText?_tripled {lineFeeds : Bool} {s : List Char} (h : lineFeeds = false → newline? s = none) :
    readText? (['\x22', '\x22', '\x22'] ++ (if lineFeeds then ['\n'] else []) ++ s) =
        (basicLines false s).map (fun r => (String.ofList r.1, r.2)) ∧
      readText? (['\x27', '\x27', '\x27'] ++ (if lineFeeds then ['\n'] else []) ++ s) =
        (literalLines s).map (fun r => (String.ofList r.1, r.2)) := by
  cases lineFeeds with
  | true => exact ⟨rfl, rfl⟩
  | false => simp [readText?, skipNewline, h rfl]

theorem newline?_of_head {c : Char} (hfeed : c ≠ '\n') (hreturn : c ≠ '\x0d') (s : List Char) :
    newline? (c :: s) = none := by
  unfold newline?
  split <;> simp_all

theorem escapeText_ne_marks (cs rest t : List Char) :
    escapeText cs ++ '\x22' :: '\n' :: rest ≠ '\x22' :: '\x22' :: t := by
  intro h
  cases cs with
  | nil => simp [escapeText] at h
  | cons c cs =>
    rw [escapeText, List.flatMap_cons, List.append_assoc] at h
    by_cases hquote : c = '\x22'
    · simp [hquote] at h
    · by_cases hfeed : c = '\n'
      · simp [hfeed] at h
      · obtain ⟨b, w, hw, hb⟩ := escapeChar_eq_cons hquote
        rw [if_neg hquote, if_neg hfeed, hw] at h
        exact hb (List.cons.inj h).1

theorem newline?_escapeLines {cs : List Char} (hfeed : '\n' ∉ cs) (tail : List Char) :
    newline? (escapeLines 0 cs ++ '\x22' :: tail) = none := by
  cases cs with
  | nil => rfl
  | cons c cs =>
    have hc : c ≠ '\n' := fun h => hfeed (h ▸ List.mem_cons_self)
    rw [escapeLines]
    by_cases hquote : c = '\x22'
    · rw [if_pos hquote]
      rfl
    · obtain ⟨b, t, ht, -, hb, hb'⟩ := (written_escapeChar hquote hc).eq_cons
      rw [if_neg hquote, ht]
      exact newline?_of_head hb hb' _

theorem append_ne_marks {cs : List Char} (hmark : '\x27' ∉ cs) (rest t : List Char) :
    cs ++ '\x27' :: '\n' :: rest ≠ '\x27' :: '\x27' :: t := by
  cases cs with
  | nil => simp
  | cons c cs => exact fun h => hmark ((List.cons.inj h).1 ▸ List.mem_cons_self)

theorem newline?_append {cs : List Char} (hplain : ∀ c ∈ cs, isPlain c = true ∨ c = '\n') (hfeed : '\n' ∉ cs)
    (tail : List Char) : newline? (cs ++ '\x27' :: tail) = none := by
  cases cs with
  | nil => rfl
  | cons c cs =>
    have hc : c ≠ '\n' := fun h => hfeed (h ▸ List.mem_cons_self)
    refine newline?_of_head hc ?_ _
    rintro rfl
    exact (hplain _ List.mem_cons_self).elim (fun h => by cases h) hc

/-- A text that is written on a line is read back from it. -/
theorem readText?_quoted (text : String) (rest : List Char) :
    readText? ((quoted text).toList ++ '\n' :: rest) = some (text, '\n' :: rest) := by
  unfold quoted
  simp only [String.toList_ofList]
  have hfeeds (h : (Traits.of text.toList).lineFeeds = false) : '\n' ∉ text.toList := by
    simpa [Traits.of] using h
  split
  next =>
    have hread := readText?_line.1 (escapeText_ne_marks text.toList rest)
    rw [basicText_escapeText] at hread
    simpa using hread
  next hform =>
    obtain ⟨hcontrols, hmarks, hline⟩ := Traits.of_literal hform
    have hmark : '\x27' ∉ text.toList := fun h => (longestRun_pos h).ne' hmarks
    have hplain : ∀ c ∈ text.toList, isPlain c = true := fun c hc =>
      (isPlain_or_feed hcontrols c hc).resolve_right fun h => hfeeds hline (h ▸ hc)
    have hread := readText?_line.2 (append_ne_marks hmark rest)
    rw [literalText_append hplain hmark] at hread
    simpa using hread
  next =>
    have hread := (readText?_tripled fun h =>
      newline?_escapeLines (hfeeds h) ('\x22' :: '\x22' :: '\n' :: rest)).1
    rw [basicLines_escapeLines] at hread
    simpa [tripled] using hread
  next hform =>
    obtain ⟨hcontrols, hmarks⟩ := Traits.of_literalLines hform
    have hread := (readText?_tripled fun h =>
      newline?_append (isPlain_or_feed hcontrols) (hfeeds h) ('\x27' :: '\x27' :: '\n' :: rest)).2
    rw [literalLines_append (isPlain_or_feed hcontrols) hmarks] at hread
    simpa [tripled] using hread

end Toml

end DerivedSignal
