import DerivedSignal.Template
import Mathlib

namespace DerivedSignal

namespace Template

/-- The delimiters of a text, counted from the left without overlap. -/
def delimiters : List Char → Nat
  | '$' :: '$' :: rest => delimiters rest + 1
  | _ :: rest => delimiters rest
  | [] => 0

/-- A text without a delimiter. -/
def Undelimited (cs : List Char) : Prop := ¬ ['$', '$'] <:+: cs

/-- A text without a delimiter, also if one `$` follows it: the first delimiter behind it is not cut short. -/
structure Closed (cs : List Char) : Prop where
  undelimited : Undelimited cs
  last : cs.getLast? ≠ some '$'

/-- A text is not empty and has no delimiter; a name does not run into the delimiter that closes it. -/
def Segment.Proper : Segment → Prop
  | .text cs => cs ≠ [] ∧ Undelimited cs
  | .channel cs => Closed cs

/-- What may follow a piece: no text after a text, and no name after a text that ends in `$`. -/
def Segment.MayPrecede : Segment → Segment → Prop
  | .text _, .text _ => False
  | .text cs, .channel _ => cs.getLast? ≠ some '$'
  | .channel _, _ => True

/-- Pieces in normal form. -/
structure Canonical (segments : List Segment) : Prop where
  proper : ∀ segment ∈ segments, segment.Proper
  neighbours : segments.IsChain Segment.MayPrecede

variable {s before name after rest : List Char} {segments : List Segment}

theorem undelimited_cons_iff {c : Char} :
    Undelimited (c :: rest) ↔ ¬ (c = '$' ∧ ∃ rest', rest = '$' :: rest') ∧ Undelimited rest := by
  rw [Undelimited, List.infix_cons_iff, not_or, List.cons_prefix_cons]
  refine and_congr_left fun _ => not_congr (and_congr eq_comm ?_)
  cases rest with
  | nil => simp
  | cons d rest => simp [eq_comm]

theorem closed_iff : Closed s ↔ Undelimited (s ++ ['$']) := by
  have hlast : ['$', '$'] <:+ s ++ ['$'] ↔ s.getLast? = some '$' := by
    rw [← List.singleton_suffix_iff_getLast?_eq_some]
    exact @List.suffix_append_self_iff Char ['$'] s ['$']
  rw [Undelimited, List.infix_concat_iff, hlast, not_or]
  exact ⟨fun h => ⟨h.last, h.undelimited⟩, fun h => ⟨h.2, h.1⟩⟩

theorem cut?_eq_none_iff : cut? s = none ↔ Undelimited s := by
  induction s using cut?.induct with
  | case1 rest => simp [cut?, undelimited_cons_iff]
  | case2 c rest hne ih =>
    rw [cut?, Option.map_eq_none_iff, ih, undelimited_cons_iff]
    · refine (and_iff_right ?_).symm
      rintro ⟨hc, rest', hrest⟩
      exact hne rest' hc hrest
    · exact hne
  | case3 => simp [cut?, Undelimited]

/-- The first delimiter stands behind a closed text. -/
theorem closed_of_cut? (h : cut? s = some (before, after)) : Closed before := by
  induction s using cut?.induct generalizing before after with
  | case1 rest =>
    rw [cut?, Option.some.injEq, Prod.mk.injEq] at h
    rw [← h.1]
    exact ⟨by simp [Undelimited], by simp⟩
  | case2 c rest hne ih =>
    rw [cut?.eq_2 c rest hne] at h
    obtain ⟨⟨before', after'⟩, hcut, heq⟩ := Option.map_eq_some_iff.mp h
    cases heq
    rw [closed_iff, List.cons_append, undelimited_cons_iff]
    refine ⟨?_, closed_iff.mp (ih hcut)⟩
    -- a `$` in front of the delimiter would have made an earlier one
    rintro ⟨hc, rest', hrest⟩
    refine hne (rest' ++ '$' :: after) hc ?_
    rw [← append_of_cut? hcut, ← List.cons_append, ← hrest]
    simp
  | case3 => cases h

theorem cut?_append (h : Closed before) (after : List Char) :
    cut? (before ++ '$' :: '$' :: after) = some (before, after) := by
  rw [closed_iff] at h
  induction before with
  | nil => rfl
  | cons c before ih =>
    obtain ⟨hfirst, hbefore⟩ := undelimited_cons_iff.mp h
    rw [List.cons_append, cut?, ih hbefore]
    · rfl
    · intro rest hc hrest
      refine hfirst ⟨hc, ?_⟩
      cases before with
      | nil => exact ⟨[], rfl⟩
      | cons d before =>
        cases hrest
        exact ⟨_, rfl⟩

theorem delimiters_of_cut?_none (h : cut? s = none) : delimiters s = 0 := by
  induction s using cut?.induct with
  | case1 rest => cases h
  | case2 c rest hne ih =>
    rw [cut?.eq_2 c rest hne, Option.map_eq_none_iff] at h
    rw [delimiters.eq_2 c rest hne]
    exact ih h
  | case3 => rfl

theorem delimiters_of_cut? (h : cut? s = some (before, after)) :
    delimiters s = delimiters after + 1 := by
  induction s using cut?.induct generalizing before after with
  | case1 rest =>
    cases h
    rfl
  | case2 c rest hne ih =>
    rw [cut?.eq_2 c rest hne] at h
    obtain ⟨⟨before', after'⟩, hcut, heq⟩ := Option.map_eq_some_iff.mp h
    cases heq
    rw [delimiters.eq_2 c rest hne]
    exact ih hcut
  | case3 => cases h

theorem scan_isSome_iff (s : List Char) : (scan s).isSome = true ↔ Even (delimiters s) := by
  fun_induction scan s with
  | case1 s hs => simp [delimiters_of_cut?_none hs]
  | case2 s before opened hs hopened =>
    simp [delimiters_of_cut? hs, delimiters_of_cut?_none hopened]
  | case3 s before opened hs name rest hname ih =>
    rw [Option.isSome_map, ih, delimiters_of_cut? hs, delimiters_of_cut? hname, add_assoc,
      Nat.even_add]
    simp

theorem canonical_nil : Canonical [] := ⟨by simp, List.isChain_nil⟩

theorem canonical_cons_iff {segment : Segment} : Canonical (segment :: segments) ↔
    segment.Proper ∧ (∀ next ∈ segments.head?, segment.MayPrecede next) ∧ Canonical segments := by
  constructor
  · rintro ⟨hproper, hneighbours⟩
    obtain ⟨hfirst, hrest⟩ := List.forall_mem_cons.mp hproper
    obtain ⟨hnext, hchain⟩ := List.isChain_cons.mp hneighbours
    exact ⟨hfirst, hnext, hrest, hchain⟩
  · rintro ⟨hfirst, hnext, hrest, hchain⟩
    exact ⟨List.forall_mem_cons.mpr ⟨hfirst, hrest⟩, List.isChain_cons.mpr ⟨hnext, hchain⟩⟩

theorem canonical_of_scan (h : scan s = some segments) : Canonical segments := by
  fun_induction scan s generalizing segments with
  | case1 s hs =>
    cases Option.some.inj h
    cases s with
    | nil => exact canonical_nil
    | cons c s =>
      exact canonical_cons_iff.mpr
        ⟨⟨List.cons_ne_nil c s, cut?_eq_none_iff.mp hs⟩, by simp, canonical_nil⟩
  | case2 => cases h
  | case3 s before opened hs name rest hname ih =>
    obtain ⟨after, hafter, rfl⟩ := Option.map_eq_some_iff.mp h
    have hchannel : Canonical (.channel name :: after) :=
      canonical_cons_iff.mpr ⟨closed_of_cut? hname, fun _ _ => trivial, ih hafter⟩
    have hbefore := closed_of_cut? hs
    cases before with
    | nil => exact hchannel
    | cons c before =>
      refine canonical_cons_iff.mpr ⟨⟨List.cons_ne_nil c before, hbefore.undelimited⟩, ?_, hchannel⟩
      rintro _ ⟨⟩
      exact hbefore.last

theorem scan_append (hbefore : Closed before) (hname : Closed name)
    (hafter : scan after = some segments) :
    scan (before ++ Segment.written (.channel name) ++ after) =
      some (literal before ++ .channel name :: segments) := by
  have hopened := cut?_append hbefore (name ++ '$' :: '$' :: after)
  have hclosed := cut?_append hname after
  have hs : before ++ Segment.written (.channel name) ++ after =
      before ++ '$' :: '$' :: (name ++ '$' :: '$' :: after) := by
    simp [Segment.written]
  rw [hs, scan]
  split
  next hnone => simp [hopened] at hnone
  next before' opened hsome =>
    rw [hopened] at hsome
    cases hsome
    split
    next hnone => simp [hclosed] at hnone
    next name' rest hsome =>
      rw [hclosed] at hsome
      cases hsome
      rw [hafter]
      rfl

theorem literal_of_ne_nil (h : s ≠ []) : literal s = [.text s] := by
  cases s with
  | nil => exact absurd rfl h
  | cons c s => rfl

theorem scan_of_undelimited (h : Undelimited s) : scan s = some (literal s) := by
  rw [scan]
  split
  next => rfl
  next hsome => simp [cut?_eq_none_iff.mpr h] at hsome

/-- Pieces in normal form are read back from what they stand for. -/
theorem scan_of_canonical :
    ∀ {segments : List Segment}, Canonical segments →
      scan (segments.flatMap Segment.written) = some segments
  | [], _ => scan_of_undelimited (by simp [Undelimited])
  | [.text cs], h => by
    obtain ⟨⟨hnonempty, hcs⟩, -⟩ := canonical_cons_iff.mp h
    rw [List.flatMap_cons, List.flatMap_nil, List.append_nil, Segment.written, scan_of_undelimited hcs,
      literal_of_ne_nil hnonempty]
  | .text _ :: .text _ :: _, h => h.neighbours.rel.elim
  | .text cs :: .channel name :: after, h => by
    obtain ⟨⟨hnonempty, hcs⟩, hnext, hchannel⟩ := canonical_cons_iff.mp h
    obtain ⟨hname, -, hafter⟩ := canonical_cons_iff.mp hchannel
    have hclosed : Closed cs := ⟨hcs, hnext _ rfl⟩
    rw [List.flatMap_cons, List.flatMap_cons, ← List.append_assoc]
    exact (scan_append hclosed hname (scan_of_canonical hafter)).trans
      (by rw [literal_of_ne_nil hnonempty, List.singleton_append])
  | .channel name :: after, h => by
    obtain ⟨hname, -, hafter⟩ := canonical_cons_iff.mp h
    have hclosed : Closed [] := ⟨by simp [Undelimited], by simp⟩
    exact scan_append hclosed hname (scan_of_canonical hafter)

theorem scan_eq_some_iff : scan s = some segments ↔
    Canonical segments ∧ segments.flatMap Segment.written = s := by
  constructor
  · intro h
    exact ⟨canonical_of_scan h, written_of_scan h⟩
  · rintro ⟨hcanonical, rfl⟩
    exact scan_of_canonical hcanonical

/-- A scan succeeds on the expressions with an even number of delimiters. What it gives, and what the
references of the expression are replaced by and listed from, are the only pieces in normal form that stand
for the expression. -/
theorem expression_segmented_in_one_way (expression : String) :
    ((scan expression.toList).isSome = true ↔ Even (delimiters expression.toList)) ∧
    (∀ segments, scan expression.toList = some segments ↔
      Canonical segments ∧ segments.flatMap Segment.written = expression.toList) ∧
    (∀ segments, Canonical segments → segments.flatMap Segment.written = expression.toList →
      channelsIn expression = channelNames segments ∧
      ∀ linked, assignSlots expression linked = .ok (segments.foldl (step linked) ⟨"", []⟩)) ∧
    ∀ linked error, assignSlots expression linked = .error error ↔
      Odd (delimiters expression.toList) ∧ error = .malformed "invalid use of $$ macro" := by
  refine ⟨scan_isSome_iff _, fun segments => scan_eq_some_iff, ?_, ?_⟩
  · intro segments hcanonical hwritten
    have hscan := scan_eq_some_iff.mpr ⟨hcanonical, hwritten⟩
    refine ⟨?_, fun linked => ?_⟩
    · rw [channelsIn, hscan]
    · rw [assignSlots, hscan]
  · intro linked error
    rw [← Nat.not_even_iff_odd, ← scan_isSome_iff, assignSlots]
    cases scan expression.toList with
    | none => simp [eq_comm]
    | some segments => simp

/-- A `$` behind a delimiter belongs to the name or the text that it starts. -/
theorem expression_segmented_in_one_way_dollars :
    Canonical [.text ['a'], .channel ['$', 'b'], .text ['$']] ∧
    scan "a$$$b$$$".toList = some [.text ['a'], .channel ['$', 'b'], .text ['$']] ∧
    channelsIn "a$$$b$$$" = ["$b"] ∧
    assignSlots "a$$$b$$$" "$b" = .ok ⟨"avalue$", []⟩ := by
  have hcanonical : Canonical [.text ['a'], .channel ['$', 'b'], .text ['$']] :=
    ⟨by simp [Segment.Proper, closed_iff, Undelimited]; decide, by simp [Segment.MayPrecede]⟩
  obtain ⟨-, hscan, hacts, -⟩ := expression_segmented_in_one_way "a$$$b$$$"
  obtain ⟨hchannels, hslots⟩ := hacts _ hcanonical rfl
  exact ⟨hcanonical, (hscan _).mpr ⟨hcanonical, rfl⟩, hchannels, hslots "$b"⟩

end Template

end DerivedSignal
