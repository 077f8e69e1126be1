import DerivedSignal.Proofs.MentionedNames
import DerivedSignal.Proofs.Segmentation
import Mathlib

namespace DerivedSignal

namespace Template

/-- What stands for a piece once the channels have their slots. -/
inductive Stands (linked : String) (channels : List String) : Segment → List Char → Prop
  | text (cs : List Char) : Stands linked channels (.text cs) cs
  | value {cs : List Char} (h : String.ofList cs = linked) :
      Stands linked channels (.channel cs) valueVariable.toList
  | element {cs : List Char} {i : Nat} (hne : String.ofList cs ≠ linked)
      (h : channels[i]? = some (String.ofList cs)) :
      Stands linked channels (.channel cs) (channelsVariable ++ "[" ++ toString i ++ "]").toList

variable {linked : String} {channels : List String} {segments : List Segment} {pieces : List (List Char)}

theorem nodup_eraseDups {α : Type} [BEq α] [LawfulBEq α] (xs : List α) : xs.eraseDups.Nodup := by
  induction hn : xs.length using Nat.strong_induction_on generalizing xs with
  | _ n ih =>
    cases xs with
    | nil => exact List.nodup_nil
    | cons x xs =>
      have hlength := List.length_filter_le (fun y => !y == x) xs
      simp only [List.length_cons] at hn
      rw [List.eraseDups_cons, List.nodup_cons]
      refine ⟨fun hmem => ?_, ih _ (by omega) _ rfl⟩
      simpa using (List.mem_filter.mp (List.mem_eraseDups.mp hmem)).2

/-- Uses of channels, one after another, put the new ones behind those that have a slot. -/
theorem foldl_addChannel (names channels : List String) :
    names.foldl addChannel channels = channels ++ (names.removeAll channels).eraseDups := by
  induction names generalizing channels with
  | nil => simp [List.removeAll]
  | cons name names ih =>
    rw [List.foldl_cons, ih, addChannel]
    by_cases hname : name ∈ channels
    · simp [List.removeAll, hname]
    · simp [List.removeAll, hname, List.eraseDups_cons, List.filter_filter, Bool.and_comm, beq_eq_decide]

theorem channels_foldl_step (linked : String) (segments : List Segment) (done : Slotted) :
    (segments.foldl (step linked) done).channels =
      ((channelNames segments).filter (· ≠ linked)).foldl addChannel done.channels := by
  induction segments generalizing done with
  | nil => rfl
  | cons segment segments ih =>
    rw [List.foldl_cons, ih]
    cases segment with
    | text cs => rfl
    | channel cs =>
      by_cases hlinked : String.ofList cs = linked
      · simp [step, channelNames, hlinked]
      · simp [step, channelNames, hlinked]

theorem Stands.mono {channels' : List String} (h : channels <+: channels') {segment : Segment}
    {piece : List Char} (hs : Stands linked channels segment piece) :
    Stands linked channels' segment piece := by
  cases hs with
  | text => exact .text _
  | value heq => exact .value heq
  | element hne hi =>
    obtain ⟨rest, rfl⟩ := h
    refine .element hne ?_
    rw [List.getElem?_append_left (List.getElem?_eq_some_iff.mp hi).1, hi]

theorem mem_addChannel (channels : List String) (name : String) : name ∈ addChannel channels name := by
  unfold addChannel
  split
  next h => simpa using h
  next => simp

theorem stands_step (linked : String) (done : Slotted) (segment : Segment) :
    ∃ piece, Stands linked (step linked done segment).channels segment piece ∧
      (step linked done segment).text.toList = done.text.toList ++ piece := by
  cases segment with
  | text cs => exact ⟨cs, .text cs, by simp [step]⟩
  | channel cs =>
    by_cases hlinked : String.ofList cs = linked
    · exact ⟨_, .value hlinked, by simp [step, hlinked]⟩
    · have hslot := List.getElem?_idxOf (mem_addChannel done.channels (String.ofList cs))
      refine ⟨_, .element hlinked (by simpa [step, hlinked] using hslot), ?_⟩
      simp [step, hlinked]

theorem prefix_foldl_step (linked : String) (segments : List Segment) (done : Slotted) :
    done.channels <+: (segments.foldl (step linked) done).channels := by
  rw [channels_foldl_step, foldl_addChannel]
  exact List.prefix_append _ _

/-- The slots that are given later leave the variables of the earlier pieces as they are. -/
theorem stands_foldl_step (linked : String) (segments : List Segment) (done : Slotted) :
    ∃ pieces, List.Forall₂ (Stands linked (segments.foldl (step linked) done).channels) segments pieces ∧
      (segments.foldl (step linked) done).text.toList = done.text.toList ++ pieces.flatten := by
  induction segments generalizing done with
  | nil => exact ⟨[], .nil, by simp⟩
  | cons segment segments ih =>
    obtain ⟨piece, hpiece, htext⟩ := stands_step linked done segment
    obtain ⟨pieces, hpieces, hrest⟩ := ih (step linked done segment)
    refine ⟨piece :: pieces, .cons (hpiece.mono (prefix_foldl_step linked segments _)) hpieces, ?_⟩
    rw [List.foldl_cons, hrest, htext, List.flatten_cons, List.append_assoc]

theorem undelimited_nil : Undelimited [] := by simp [Undelimited]

theorem undelimited_of_not_mem {cs : List Char} (h : '$' ∉ cs) : Undelimited cs := fun hdelimiter =>
  h (hdelimiter.subset List.mem_cons_self)

/-- Two texts have no delimiter between them unless each brings one half of it. -/
theorem undelimited_append {before after : List Char} (hbefore : Undelimited before)
    (hafter : Undelimited after) (h : before.getLast? = some '$' → after.head? ≠ some '$') :
    Undelimited (before ++ after) := by
  induction before with
  | nil => exact hafter
  | cons c before ih =>
    obtain ⟨hfirst, hbefore⟩ := undelimited_cons_iff.mp hbefore
    rw [List.cons_append, undelimited_cons_iff]
    cases before with
    | nil =>
      refine ⟨?_, hafter⟩
      rintro ⟨rfl, rest, hrest⟩
      exact h rfl (by rw [← List.nil_append after, hrest, List.head?_cons])
    | cons d before =>
      refine ⟨?_, ih hbefore (by simpa using h)⟩
      rintro ⟨rfl, rest, hrest⟩
      cases hrest
      exact hfirst ⟨rfl, before, rfl⟩

/-- The variable of a reference begins with a letter and has no `$`. -/
theorem Stands.variable {cs piece : List Char} (h : Stands linked channels (.channel cs) piece) :
    '$' ∉ piece ∧ ∃ c rest, piece = c :: rest := by
  cases h with
  | value => exact ⟨by decide, 'v', _, rfl⟩
  | @element _ i =>
    have hpiece : (channelsVariable ++ "[" ++ toString i ++ "]").toList =
        channelsVariable.toList ++ '[' :: (Nat.toDigits 10 i ++ [']']) := by
      simp [Nat.toList_repr]
    have hdigits : '$' ∉ Nat.toDigits 10 i := not_mem_toDigits rfl i
    have hname : '$' ∉ channelsVariable.toList := by decide
    rw [hpiece]
    exact ⟨by simp [hdigits, hname], 'C', _, rfl⟩

/-- No delimiter comes about where a variable is put, since it has no `$` and no two texts meet. -/
theorem undelimited_flatten (hcanonical : Canonical segments)
    (h : List.Forall₂ (Stands linked channels) segments pieces) : Undelimited pieces.flatten := by
  induction h with
  | nil => exact undelimited_nil
  | @cons segment piece segments pieces hpiece hpieces ih =>
    obtain ⟨hproper, hnext, hcanonical⟩ := canonical_cons_iff.mp hcanonical
    have hrest := ih hcanonical
    rw [List.flatten_cons]
    cases segment with
    | channel cs =>
      have hvariable := hpiece.variable.1
      exact undelimited_append (undelimited_of_not_mem hvariable) hrest fun hlast =>
        absurd (List.mem_of_getLast? hlast) hvariable
    | text cs =>
      cases hpiece
      refine undelimited_append hproper.2 hrest fun _ => ?_
      cases hpieces with
      | nil => simp
      | @cons next piece' _ _ hpiece' _ =>
        cases next with
        | text => exact (hnext _ rfl).elim
        | channel =>
          obtain ⟨hvariable, c, rest, rfl⟩ := hpiece'.variable
          simp only [List.flatten_cons, List.cons_append, List.head?_cons, ne_eq, Option.some.injEq]
          exact fun hc => hvariable (hc ▸ List.mem_cons_self)

/-- A text without a delimiter has no references. -/
theorem assignSlots_of_undelimited {expression : String} (h : Undelimited expression.toList)
    (linked : String) : assignSlots expression linked = .ok ⟨expression, []⟩ := by
  rw [assignSlots, scan_of_undelimited h]
  cases hs : expression.toList with
  | nil => simp [literal, String.toList_eq_nil_iff.mp hs]
  | cons c cs => simp [literal, step, ← hs]

theorem pieces_of_assignSlots {expression : String} {slotted : Slotted}
    (h : assignSlots expression linked = .ok slotted) :
    ∃ segments, scan expression.toList = some segments ∧
      slotted = segments.foldl (step linked) ⟨"", []⟩ := by
  unfold assignSlots at h
  split at h
  next segments hscan =>
    cases h
    exact ⟨segments, hscan, rfl⟩
  next => cases h

theorem channels_of_assignSlots {expression : String} {slotted : Slotted}
    (h : assignSlots expression linked = .ok slotted) :
    slotted.channels = ((channelsIn expression).filter (· ≠ linked)).eraseDups := by
  obtain ⟨segments, hscan, rfl⟩ := pieces_of_assignSlots h
  rw [channels_foldl_step, foldl_addChannel, channelsIn, hscan]
  simp [List.removeAll]

/-- The channels are the names that an expression refers to, the linked series apart, each in the slot of its
first use. The text is that of the expression with a variable for every reference: the value of the sample for
the linked series, and for a channel the element at its slot. It has no delimiter, so that there is nothing left
to replace. -/
theorem references_become_variables {expression linked : String} {slotted : Slotted}
    (h : assignSlots expression linked = .ok slotted) :
    ∃ segments, Canonical segments ∧ segments.flatMap Segment.written = expression.toList ∧
      slotted.channels = ((channelNames segments).filter (· ≠ linked)).eraseDups ∧
      slotted.channels.Nodup ∧ linked ∉ slotted.channels ∧
      (∃ pieces, List.Forall₂ (Stands linked slotted.channels) segments pieces ∧
        slotted.text.toList = pieces.flatten) ∧
      Undelimited slotted.text.toList ∧
      ∀ other, assignSlots slotted.text other = .ok ⟨slotted.text, []⟩ := by
  obtain ⟨segments, hscan, hslotted⟩ := pieces_of_assignSlots h
  obtain ⟨hcanonical, hwritten⟩ := scan_eq_some_iff.mp hscan
  have hchannels : slotted.channels = ((channelNames segments).filter (· ≠ linked)).eraseDups := by
    rw [channels_of_assignSlots h, channelsIn, hscan]
  obtain ⟨pieces, hpieces, htext⟩ := stands_foldl_step linked segments ⟨"", []⟩
  rw [← hslotted] at hpieces htext
  have hundelimited : Undelimited slotted.text.toList := by
    rw [htext]
    exact undelimited_flatten hcanonical hpieces
  refine ⟨segments, hcanonical, hwritten, hchannels, ?_, ?_, ⟨pieces, hpieces, htext⟩, hundelimited, ?_⟩
  · rw [hchannels]
    exact nodup_eraseDups _
  · simp [hchannels, List.mem_eraseDups]
  · exact assignSlots_of_undelimited hundelimited

/-- Two channels that are used again, the linked series between them, and a `$` on either side of a delimiter. -/
theorem references_become_variables_shared :
    let text := "CHANNEL_VALUES[0]CHANNEL_VALUES[1] - value$*CHANNEL_VALUES[0]"
    assignSlots "$$b$$$$a$$ - $$x$$$*$$b$$" "x" = .ok ⟨text, ["b", "a"]⟩ ∧
    (∃ segments pieces, segments.flatMap Segment.written = "$$b$$$$a$$ - $$x$$$*$$b$$".toList ∧
      List.Forall₂ (Stands "x" ["b", "a"]) segments pieces ∧ text.toList = pieces.flatten) ∧
    Undelimited text.toList ∧ assignSlots text "b" = .ok ⟨text, []⟩ := by
  intro text
  have hslots : assignSlots "$$b$$$$a$$ - $$x$$$*$$b$$" "x" = .ok ⟨text, ["b", "a"]⟩ := by decide +kernel
  obtain ⟨segments, -, hwritten, -, -, -, ⟨pieces, hpieces⟩, hundelimited, hagain⟩ :=
    references_become_variables hslots
  exact ⟨hslots, ⟨segments, pieces, hwritten, hpieces⟩, hundelimited, hagain "b"⟩

end Template

end DerivedSignal
