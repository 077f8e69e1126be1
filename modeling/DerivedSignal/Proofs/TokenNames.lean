import DerivedSignal.Script.Lexer
import Mathlib

namespace DerivedSignal

namespace Script

namespace Lexer

theorem decimalToken?_ne_name (negative : Bool) (cs : List Char) (s : String) :
    decimalToken? negative cs ≠ some (.name s) := by
  unfold decimalToken?
  simp only
  split
  next => simp
  next => cases decimalFloat? cs <;> simp

theorem basedToken?_ne_name (negative : Bool) (base : Nat) (cs : List Char) (s : String) :
    basedToken? negative base cs ≠ some (.name s) := by
  unfold basedToken?
  cases ofDigits? base cs with
  | none => simp
  | some n =>
    simp only [Option.bind_eq_bind, Option.bind_some]
    split <;> simp

theorem number?_ne_name (negative : Bool) (cs : List Char) (s : String) (n : Nat) :
    number? negative cs ≠ some (.name s, n) := by
  have hdecimal := decimalToken?_ne_name negative (decimalRun cs).1 s
  unfold number?
  simp only
  split
  next mark rest =>
    split
    next base _ => simp [basedToken?_ne_name]
    next => simp [decimalToken?_ne_name]
  next => simp [decimalToken?_ne_name]

/-- A name stands at the front of the text. -/
theorem name_of_token? {limits n : Nat} {signs : Bool} {c : Cursor} {s : String}
    (h : token? limits signs c = some (.name s, n)) : s.toList <+: c.rest ∧ isName s.toList = true := by
  unfold token? at h
  split at h
  next => cases h
  next =>
    obtain ⟨⟨content, m⟩, -, h⟩ := Option.bind_eq_some_iff.mp h
    simp only at h
    split at h <;> cases h
  next =>
    obtain ⟨content, -, h⟩ := Option.bind_eq_some_iff.mp h
    split at h <;> cases h
  next =>
    obtain ⟨⟨content, opens, m⟩, -, h⟩ := Option.bind_eq_some_iff.mp h
    simp only at h
    split at h <;> cases h
  next d rest hrest =>
    split at h
    next => simp [number?_ne_name] at h
    next => simp at h
  next d rest _ _ _ _ hrest =>
    split at h
    next => exact absurd h (number?_ne_name _ _ _ _)
    next =>
      split at h
      next =>
        simp only at h
        split at h
        next => cases h
        next =>
          split at h
          next => cases h
          next hname _ =>
            cases h
            rw [String.toList_ofList]
            exact ⟨List.takeWhile_prefix _, by simp_all⟩
      next => simp at h

theorem skipBlock_suffix (place : Position) (depth : Nat) (cs : List Char) :
    (skipBlock place depth cs).rest <:+ cs := by
  fun_induction skipBlock place depth cs with
  | case1 rest => exact List.suffix_rfl
  | case2 => exact List.suffix_rfl
  | case3 place depth rest ih => exact ih.trans ((List.suffix_cons _ _).trans (List.suffix_cons _ _))
  | case4 place depth rest ih => exact ih.trans ((List.suffix_cons _ _).trans (List.suffix_cons _ _))
  | case5 place depth c rest _ _ ih => exact ih.trans (List.suffix_cons _ _)

theorem skip_suffix (c : Cursor) (n : Nat) : (c.skip n).rest <:+ c.rest := List.drop_suffix _ _

/-- Each name among the tokens is a piece of the text, and a word. -/
theorem name_of_run {limits fuel : Nat} {mode : Mode} {c : Cursor} {tokens : List (Token × Position)}
    (h : run limits fuel mode c = some tokens) {e : Token × Position} (he : e ∈ tokens) {s : String}
    (hs : e.1 = .name s) : s.toList <:+: c.rest ∧ isName s.toList = true := by
  induction fuel generalizing mode c tokens with
  | zero => cases h
  | succ fuel ih =>
    -- What is read later is a piece of the rest, which is a suffix of the text.
    have hlater : ∀ {mode' : Mode} {c' : Cursor} {later : List (Token × Position)}, c'.rest <:+ c.rest →
        run limits fuel mode' c' = some later → e ∈ later →
          s.toList <:+: c.rest ∧ isName s.toList = true :=
      fun hsuffix hrun hmem => (ih hrun hmem).imp_left fun h => h.trans hsuffix.isInfix
    unfold run at h
    split at h
    next =>
      split at h <;> cases h
      cases he
    next rest hrest => exact hlater (skip_suffix c _) h he
    next rest hrest =>
      refine hlater ?_ h he
      rw [hrest]
      exact (skipBlock_suffix _ _ _).trans ((List.suffix_cons _ _).trans (List.suffix_cons _ _))
    next d rest _ _ hrest =>
      split at h
      next =>
        refine hlater ?_ h he
        rw [hrest]
        exact List.suffix_cons _ _
      next =>
        split at h
        next =>
          obtain ⟨⟨content, opens, n⟩, -, h⟩ := Option.bind_eq_some_iff.mp h
          obtain ⟨later, hrun, h⟩ := Option.bind_eq_some_iff.mp h
          cases h
          rcases List.mem_cons.mp he with rfl | he
          · cases hs
          · rcases List.mem_cons.mp he with rfl | he
            · cases hs
            · exact hlater (skip_suffix c _) hrun he
        next =>
          obtain ⟨⟨t, n⟩, ht, h⟩ := Option.bind_eq_some_iff.mp h
          obtain ⟨later, hrun, h⟩ := Option.bind_eq_some_iff.mp h
          cases h
          rcases List.mem_cons.mp he with rfl | he
          · subst hs
            exact (name_of_token? ht).imp_left List.IsPrefix.isInfix
          · exact hlater (skip_suffix c _) hrun he

theorem name_of_tokens? {limits : Nat} {text : String} {tokens : List (Token × Position)}
    (h : tokens? limits text = some tokens) {e : Token × Position} (he : e ∈ tokens) {s : String}
    (hs : e.1 = .name s) : s.toList <:+: text.toList ∧ isName s.toList = true :=
  name_of_run h he hs

end Lexer

end Script

end DerivedSignal
