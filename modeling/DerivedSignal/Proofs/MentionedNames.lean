import DerivedSignal.Template
import Mathlib

namespace DerivedSignal

/-- A name occurs in a text. -/
def Mentions (text name : String) : Prop := name.toList <:+: text.toList

namespace Template

variable {α : Type}

/-- A list that begins before an element which it does not hold ends before it. -/
theorem prefix_of_prefix_append_cons {p before after : List α} {a : α} (ha : a ∉ p)
    (h : p <+: before ++ a :: after) : p <+: before := by
  induction before generalizing p with
  | nil =>
    cases p with
    | nil => exact List.nil_prefix
    | cons c p =>
      obtain ⟨rfl, -⟩ := List.cons_prefix_cons.mp h
      exact absurd List.mem_cons_self ha
  | cons b before ih =>
    cases p with
    | nil => exact List.nil_prefix
    | cons c p =>
      obtain ⟨rfl, htail⟩ := List.cons_prefix_cons.mp h
      exact List.cons_prefix_cons.mpr ⟨rfl, ih (fun hmem => ha (List.mem_cons_of_mem _ hmem)) htail⟩

/-- A part of a list is on one side of what stands between, if it does not hold the first element of
that, nor that its own first element. -/
theorem infix_of_infix_append {a c : α} {p between before after : List α} (hp : p.head? = some c)
    (hbetween : between.head? = some a) (ha : a ∉ p) (hc : c ∉ between)
    (h : p <:+: before ++ (between ++ after)) : p <:+: before ∨ p <:+: after := by
  obtain ⟨p, rfl⟩ := List.head?_eq_some_iff.mp hp
  induction before with
  | nil =>
    right
    clear hbetween
    induction between with
    | nil => exact h
    | cons b between ih =>
      obtain ⟨hne, hc⟩ := not_or.mp (mt List.mem_cons.mpr hc)
      rcases List.infix_cons_iff.mp h with h | h
      · exact absurd (List.cons_prefix_cons.mp h).1 hne
      · exact ih hc h
  | cons b before ih =>
    rcases List.infix_cons_iff.mp h with h | h
    · obtain ⟨between, rfl⟩ := List.head?_eq_some_iff.mp hbetween
      exact .inl (prefix_of_prefix_append_cons ha (h : _ <+: b :: before ++ _ :: _)).isInfix
    · exact (ih h).imp_left fun h => h.trans (List.suffix_cons b before).isInfix

/-- A piece becomes itself or the variable of its reference. -/
theorem text_step (linked : String) (done : Slotted) (segment : Segment) :
    ∃ put : List Char, (step linked done segment).text.toList = done.text.toList ++ put ∧
      (put = segment.written ∨ put = valueVariable.toList ∨
        ∃ n : ℕ, put = channelsVariable.toList ++ '[' :: (Nat.toDigits 10 n ++ [']'])) := by
  cases segment with
  | text cs => exact ⟨cs, by simp [step], .inl rfl⟩
  | channel cs =>
    unfold step
    dsimp only
    split
    next => exact ⟨_, String.toList_append, .inr (.inl rfl)⟩
    next =>
      let slot := (addChannel done.channels (String.ofList cs)).idxOf (String.ofList cs)
      refine ⟨_, ?_, .inr (.inr ⟨slot, rfl⟩)⟩
      simp [slot, Nat.toList_repr]

theorem not_mem_toDigits {c : Char} (h : c.isDigit = false) (n : ℕ) : c ∉ Nat.toDigits 10 n := by
  intro hmem
  rw [Nat.isDigit_of_mem_toDigits (by omega) le_rfl hmem] at h
  cases h

/-- Where a variable has been put, no name begins or goes on that shares no letter with its beginning. -/
theorem infix_of_foldl_step {linked : String} {segments : List Segment} {done : Slotted}
    (h : "rate_limit".toList <:+: (segments.foldl (step linked) done).text.toList) :
    "rate_limit".toList <:+: done.text.toList ++ segments.flatMap Segment.written := by
  induction segments generalizing done with
  | nil => simpa using h
  | cons segment segments ih =>
    have h := ih h
    obtain ⟨put, hstep, hput⟩ := text_step linked done segment
    rw [hstep] at h
    rw [List.flatMap_cons]
    have hsides : "rate_limit".toList <:+: done.text.toList ∨
        "rate_limit".toList <:+: segments.flatMap Segment.written →
        "rate_limit".toList <:+:
          done.text.toList ++ (segment.written ++ segments.flatMap Segment.written) := by
      rintro (h | h)
      · exact h.trans (List.prefix_append _ _).isInfix
      · exact h.trans ((List.suffix_append _ _).trans (List.suffix_append _ _)).isInfix
    rw [List.append_assoc] at h
    rcases hput with rfl | rfl | ⟨n, rfl⟩
    · exact h
    · exact hsides (infix_of_infix_append (c := 'r') (a := 'v') rfl rfl (by decide) (by decide) h)
    · refine hsides (infix_of_infix_append (c := 'r') (a := 'C') rfl rfl (by decide) (fun hmem => ?_) h)
      rcases List.mem_append.mp hmem with hmem | hmem
      · exact absurd hmem (by decide)
      · rcases List.mem_append.mp ((List.mem_cons.mp hmem).resolve_left (by decide)) with hmem | hmem
        · exact not_mem_toDigits rfl n hmem
        · exact absurd hmem (by decide)

/-- With variables in the place of its references, an expression still mentions `rate_limit` only if it
did so before. -/
theorem mentions_of_assignSlots {expression linked : String} {slotted : Slotted}
    (h : assignSlots expression linked = .ok slotted) (hmention : Mentions slotted.text "rate_limit") :
    Mentions expression "rate_limit" := by
  unfold assignSlots at h
  split at h
  next segments hsegments =>
    cases h
    have hinfix := infix_of_foldl_step hmention
    rwa [written_of_scan hsegments] at hinfix
  next => cases h

end Template

end DerivedSignal
