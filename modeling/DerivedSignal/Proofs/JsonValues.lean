import DerivedSignal.Proofs.JsonTexts

namespace DerivedSignal

namespace Json

variable {w s rest blanks : List Char} {v : Value} {level : ℕ}

/-- A value without half surrogate pairs, whose numbers are proper literals. -/
inductive Value.Proper : Value → Prop
  | null : Proper .null
  | bool (b : Bool) : Proper (.bool b)
  | number {n : Numeral} : n.Proper → Proper (.number n)
  | string (s : String) : Proper (.ofString s)
  | array {items : List Value} : (∀ v ∈ items, Proper v) → Proper (.array items)
  | object {members : List (String × Value)} : (∀ m ∈ members, Proper m.2) → Proper (.ofMembers members)

theorem prettyItems_eq (level : ℕ) (items : List Value) :
    prettyItems level items = items.map (Value.pretty level) := by
  induction items with
  | nil => rfl
  | cons v vs ih => rw [prettyItems, ih, List.map_cons]

/-- The line of a member. -/
def memberText (level : ℕ) (m : String × Value) : String := printText m.1 ++ ": " ++ m.2.pretty level

theorem prettyMembers_eq (level : ℕ) (members : List (String × Value)) :
    prettyMembers level (members.map fun m => (some m.1, m.2)) = members.map (memberText level) := by
  induction members with
  | nil => rfl
  | cons m ms ih =>
    rw [List.map_cons, prettyMembers, ih, List.map_cons]
    rfl

/-- A text from which a value is read, whatever follows that does not belong to a number. A reader makes at
most as many calls as the text has characters. -/
structure Reads (w : List Char) (v : Value) : Prop where
  start : ∃ c t, w = c :: t ∧ isBlank c = false ∧ c ≠ ']'
  reads : ∀ fuel, w.length ≤ fuel → ∀ rest, EndsNumber rest → readValue fuel (w ++ rest) = some (v, rest)

/-- A text from which a member is read. -/
def ReadsMember (w : List Char) (m : String × Value) : Prop :=
  ∃ inside t, w = '\x22' :: (inside ++ ':' :: ' ' :: t) ∧
    (∀ rest, readText (inside ++ rest) = some (some m.1, rest)) ∧ Reads t m.2

theorem skipBlanks_append (h : ∀ c ∈ blanks, isBlank c = true) (s : List Char) :
    skipBlanks (blanks ++ s) = skipBlanks s :=
  List.dropWhile_append_of_pos h

theorem skipBlanks_cons {c : Char} (h : isBlank c = false) (t : List Char) : skipBlanks (c :: t) = c :: t :=
  List.dropWhile_cons_of_neg (by simp [h])

theorem readValue_append (h : ∀ c ∈ blanks, isBlank c = true) (fuel : ℕ) (s : List Char) :
    readValue fuel (blanks ++ s) = readValue fuel s := by
  cases fuel with
  | zero => simp only [readValue]
  | succ fuel => rw [readValue, readValue, skipBlanks_append h]

theorem skipBlanks_append_cons {c : Char} (h : ∀ c ∈ blanks, isBlank c = true) (hc : isBlank c = false)
    (t : List Char) : skipBlanks (blanks ++ c :: t) = c :: t :=
  (skipBlanks_append h _).trans (skipBlanks_cons hc t)

theorem readValue_space (fuel : ℕ) (s : List Char) : readValue fuel (' ' :: s) = readValue fuel s :=
  readValue_append (List.forall_mem_singleton.mpr (show isBlank ' ' = true from rfl)) fuel s

theorem endsNumber_of_blank {c : Char} (h : isBlank c = true) (t : List Char) : EndsNumber (c :: t) := by
  rintro _ _ ⟨⟩
  simp only [isBlank, Bool.or_eq_true, beq_iff_eq] at h
  rcases h with ((rfl | rfl) | rfl) | rfl <;> exact ⟨by decide, by decide, by decide, by decide⟩

theorem endsNumber_append (h : ∀ c ∈ blanks, isBlank c = true) (hs : EndsNumber s) : EndsNumber (blanks ++ s) := by
  cases blanks with
  | nil => exact hs
  | cons c t => exact endsNumber_of_blank (h c List.mem_cons_self) _

theorem endsNumber_mark {c : Char} (h : c ∈ [',', ']', '}']) (t : List Char) : EndsNumber (c :: t) := by
  rintro _ _ ⟨⟩
  simp only [List.mem_cons, List.not_mem_nil, or_false] at h
  rcases h with rfl | rfl | rfl <;> exact ⟨by decide, by decide, by decide, by decide⟩

section Parts

variable {close : List Char} (hblanks : ∀ c ∈ blanks, isBlank c = true) (hclose : ∀ c ∈ close, isBlank c = true)

section Steps

variable {m : String × Value} {fuel : ℕ} {after : List Char}

include hblanks

theorem readItems_more {vs : List Value} (h : Reads w v) (hfuel : w.length ≤ fuel)
    (hmore : readItems fuel after = some (vs, rest)) :
    readItems (fuel + 1) (blanks ++ (w ++ ',' :: after)) = some (v :: vs, rest) := by
  have hread := h.reads fuel hfuel (',' :: after) (endsNumber_mark (by simp) after)
  rw [readItems, readValue_append hblanks, hread]
  simp [skipBlanks_cons, isBlank, hmore]

theorem readMembers_more {ms : List (Option String × Value)} (h : ReadsMember w m) (hfuel : w.length ≤ fuel)
    (hmore : readMembers fuel after = some (ms, rest)) :
    readMembers (fuel + 1) (blanks ++ (w ++ ',' :: after)) = some ((some m.1, m.2) :: ms, rest) := by
  obtain ⟨inside, w, rfl, htext, hw⟩ := h
  simp only [List.length_append, List.length_cons] at hfuel
  have hread := hw.reads fuel (by omega) (',' :: after) (endsNumber_mark (by simp) after)
  rw [readMembers, List.cons_append, skipBlanks_append_cons hblanks rfl, List.append_assoc]
  simp [htext, skipBlanks_cons, isBlank, readValue_space, hread, hmore]

include hclose

theorem readItems_last (h : Reads w v) (hfuel : w.length ≤ fuel) :
    readItems (fuel + 1) (blanks ++ (w ++ (close ++ ']' :: rest))) = some ([v], rest) := by
  have hread := h.reads fuel hfuel (close ++ ']' :: rest)
    (endsNumber_append hclose (endsNumber_mark (by simp) rest))
  rw [readItems, readValue_append hblanks, hread]
  simp [skipBlanks_append_cons hclose, isBlank]

theorem readMembers_last (h : ReadsMember w m) (hfuel : w.length ≤ fuel) :
    readMembers (fuel + 1) (blanks ++ (w ++ (close ++ '}' :: rest))) = some ([(some m.1, m.2)], rest) := by
  obtain ⟨inside, w, rfl, htext, hw⟩ := h
  simp only [List.length_append, List.length_cons] at hfuel
  have hread := hw.reads fuel (by omega) (close ++ '}' :: rest)
    (endsNumber_append hclose (endsNumber_mark (by simp) rest))
  rw [readMembers, List.cons_append, skipBlanks_append_cons hblanks rfl, List.append_assoc]
  simp [htext, skipBlanks_cons, isBlank, readValue_space, hread, skipBlanks_append_cons hclose]

end Steps

include hblanks hclose

/-- The items of an array, each behind the same blanks. -/
theorem readItems_intercalate {ws : List (List Char)} {vs : List Value} (h : List.Forall₂ Reads (w :: ws) (v :: vs))
    (fuel : ℕ) (hfuel : (blanks ++ (',' :: blanks).intercalate (w :: ws)).length < fuel) (rest : List Char) :
    readItems fuel (blanks ++ (',' :: blanks).intercalate (w :: ws) ++ (close ++ ']' :: rest)) =
      some (v :: vs, rest) := by
  induction ws generalizing w v vs fuel with
  | nil =>
    obtain ⟨hw, hvs⟩ := List.forall₂_cons.mp h
    cases hvs
    obtain ⟨fuel, rfl⟩ : ∃ f, fuel = f + 1 := ⟨fuel - 1, by omega⟩
    rw [List.intercalate_singleton, List.length_append] at hfuel
    rw [List.intercalate_singleton, List.append_assoc]
    exact readItems_last hblanks hclose hw (by omega)
  | cons w' ws ih =>
    obtain ⟨hw, hvs⟩ := List.forall₂_cons.mp h
    obtain ⟨v', vs, hw', hws, rfl⟩ := List.forall₂_cons_left_iff.mp hvs
    obtain ⟨fuel, rfl⟩ : ∃ f, fuel = f + 1 := ⟨fuel - 1, by omega⟩
    simp only [List.intercalate_cons_cons, List.length_append, List.length_cons] at hfuel
    have hmore := ih (.cons hw' hws) fuel (by rw [List.length_append]; omega)
    have hread := readItems_more hblanks hw (by omega) hmore
    simpa only [List.intercalate_cons_cons, List.append_assoc, List.cons_append] using hread

/-- The members of an object, each behind the same blanks. -/
theorem readMembers_intercalate {ws : List (List Char)} {m : String × Value} {ms : List (String × Value)}
    (h : List.Forall₂ ReadsMember (w :: ws) (m :: ms)) (fuel : ℕ)
    (hfuel : (blanks ++ (',' :: blanks).intercalate (w :: ws)).length < fuel) (rest : List Char) :
    readMembers fuel (blanks ++ (',' :: blanks).intercalate (w :: ws) ++ (close ++ '}' :: rest)) =
      some ((m :: ms).map fun m => (some m.1, m.2), rest) := by
  induction ws generalizing w m ms fuel with
  | nil =>
    obtain ⟨hw, hms⟩ := List.forall₂_cons.mp h
    cases hms
    obtain ⟨fuel, rfl⟩ : ∃ f, fuel = f + 1 := ⟨fuel - 1, by omega⟩
    rw [List.intercalate_singleton, List.length_append] at hfuel
    rw [List.intercalate_singleton, List.append_assoc]
    exact readMembers_last hblanks hclose hw (by omega)
  | cons w' ws ih =>
    obtain ⟨hw, hms⟩ := List.forall₂_cons.mp h
    obtain ⟨m', ms, hw', hws, rfl⟩ := List.forall₂_cons_left_iff.mp hms
    obtain ⟨fuel, rfl⟩ : ∃ f, fuel = f + 1 := ⟨fuel - 1, by omega⟩
    simp only [List.intercalate_cons_cons, List.length_append, List.length_cons] at hfuel
    have hmore := ih (.cons hw' hws) fuel (by rw [List.length_append]; omega)
    have hread := readMembers_more hblanks hw (by omega) hmore
    simpa only [List.intercalate_cons_cons, List.append_assoc, List.cons_append, List.map_cons] using hread

end Parts

theorem lineBreak_blank (level : ℕ) : ∀ c ∈ (lineBreak level).toList, isBlank c = true := by
  simp [lineBreak, isBlank]

theorem toList_block {level : ℕ} {opening closing : String} {o c : Char} (hopening : opening.toList = [o])
    (hclosing : closing.toList = [c]) (part : String) (parts : List String) :
    (block level opening closing (part :: parts)).toList =
      o :: ((lineBreak (level + 1)).toList ++ (',' :: (lineBreak (level + 1)).toList).intercalate
        (part.toList :: parts.map String.toList) ++ ((lineBreak level).toList ++ [c])) := by
  simp [block, String.toList_intercalate, hopening, hclosing]

theorem reads_word {word : List Char} {c : Char} {t : List Char} (hword : word = c :: t)
    (hc : isBlank c = false ∧ c ≠ ']')
    (h : ∀ fuel rest, readValue (fuel + 1) (word ++ rest) = some (v, rest)) : Reads word v := by
  refine ⟨⟨c, t, hword, hc⟩, fun fuel hfuel rest _ => ?_⟩
  obtain ⟨fuel, rfl⟩ : ∃ f, fuel = f + 1 := ⟨fuel - 1, by rw [hword, List.length_cons] at hfuel; omega⟩
  exact h fuel rest

theorem reads_number {n : Numeral} (h : n.Proper) : Reads n.print.toList (.number n) := by
  obtain ⟨w, ws, hw⟩ := List.exists_cons_of_ne_nil h.whole_ne_nil
  have hdigit : w.isDigit = true := h.whole w (hw ▸ List.mem_cons_self)
  obtain ⟨c, t, hprint, hc⟩ : ∃ c t, n.print.toList = c :: t ∧ (c = '-' ∨ c.isDigit = true) := by
    rw [Numeral.toList_print, hw]
    cases n.negative
    · exact ⟨w, _, rfl, .inr hdigit⟩
    · exact ⟨'-', _, rfl, .inl rfl⟩
  have hother : ∀ d : Char, d ≠ '-' → d.isDigit = false → c ≠ d := by
    rintro d hminus hd rfl
    rcases hc with rfl | hc
    · exact hminus rfl
    · simp [hc] at hd
  have hblank : isBlank c = false := by
    simp [isBlank, hother]
  refine ⟨⟨c, t, hprint, hblank, hother _ (by decide) (by decide)⟩, fun fuel hfuel rest hrest => ?_⟩
  obtain ⟨fuel, rfl⟩ : ∃ f, fuel = f + 1 := ⟨fuel - 1, by rw [hprint, List.length_cons] at hfuel; omega⟩
  have hread := readNumeral_print h hrest
  have hn : c ≠ 'n' := hother _ (by decide) (by decide)
  have ht : c ≠ 't' := hother _ (by decide) (by decide)
  have hf : c ≠ 'f' := hother _ (by decide) (by decide)
  have hquote : c ≠ '\x22' := hother _ (by decide) (by decide)
  have hbracket : c ≠ '[' := hother _ (by decide) (by decide)
  have hbrace : c ≠ '{' := hother _ (by decide) (by decide)
  rw [hprint, List.cons_append] at hread ⊢
  rw [readValue, skipBlanks_cons hblank]
  split <;> simp_all

/-- What stands in brackets begins with the first part behind the blanks. -/
theorem skipBlanks_parts (hblanks : ∀ c ∈ blanks, isBlank c = true) {c : Char} (hc : isBlank c = false)
    (t : List Char) (ws : List (List Char)) (after : List Char) :
    ∃ t', skipBlanks (blanks ++ (',' :: blanks).intercalate ((c :: t) :: ws) ++ after) = c :: t' := by
  rw [List.append_assoc, List.intercalate_cons_cons_left, List.cons_append]
  exact ⟨_, skipBlanks_append_cons hblanks hc _⟩

theorem forall₂_map {α β : Type} {R : α → β → Prop} {f : β → α} {l : List β} (h : ∀ b ∈ l, R (f b) b) :
    List.Forall₂ R (l.map f) l := by
  rw [List.forall₂_map_left_iff, List.forall₂_same]
  exact h

/-- A value in brackets, of which the first one takes a call of the reader. -/
theorem reads_bracketed {o c : Char} {body close : List Char} (ho : isBlank o = false ∧ o ≠ ']')
    (h : ∀ fuel, body.length < fuel → ∀ rest,
      readValue (fuel + 1) (o :: (body ++ (close ++ c :: rest))) = some (v, rest)) :
    Reads (o :: (body ++ (close ++ [c]))) v := by
  refine ⟨⟨o, _, rfl, ho⟩, fun fuel hfuel rest _ => ?_⟩
  simp only [List.length_cons, List.length_append] at hfuel
  obtain ⟨fuel, rfl⟩ : ∃ f, fuel = f + 1 := ⟨fuel - 1, by omega⟩
  have hread := h fuel (by omega) rest
  simpa only [List.cons_append, List.append_assoc, List.nil_append] using hread

theorem reads_array {items : List Value} (h : ∀ v ∈ items, Reads (v.pretty (level + 1)).toList v) :
    Reads (Value.pretty level (.array items)).toList (.array items) := by
  rw [Value.pretty, prettyItems_eq]
  cases items with
  | nil =>
    exact reads_word (c := '[') (t := [']']) (by simp [block]) ⟨rfl, by decide⟩ fun fuel rest => by
      simp [block, readValue, skipBlanks, isBlank]
  | cons v vs =>
    have hparts : List.Forall₂ Reads ((v :: vs).map fun v => (v.pretty (level + 1)).toList) (v :: vs) :=
      forall₂_map h
    have htexts : (vs.map (Value.pretty (level + 1))).map String.toList =
        vs.map fun v => (v.pretty (level + 1)).toList :=
      List.map_map
    obtain ⟨c, t, hstart, hblank, hbracket⟩ := (h v List.mem_cons_self).start
    rw [List.map_cons, toList_block (o := '[') (c := ']') rfl rfl, htexts, hstart]
    rw [List.map_cons, hstart] at hparts
    refine reads_bracketed ⟨rfl, by decide⟩ fun fuel hfuel rest => ?_
    have hread := readItems_intercalate (lineBreak_blank (level + 1)) (lineBreak_blank level) hparts fuel hfuel rest
    obtain ⟨t', hfirst⟩ := skipBlanks_parts (lineBreak_blank (level + 1)) hblank t
      (vs.map fun v => (v.pretty (level + 1)).toList) ((lineBreak level).toList ++ ']' :: rest)
    rw [readValue, skipBlanks_cons rfl]
    simp only [hfirst]
    split
    next heq => exact absurd (List.cons.inj heq).1 hbracket
    next => rw [hread]; rfl

theorem reads_object {members : List (String × Value)}
    (h : ∀ m ∈ members, Reads (m.2.pretty (level + 1)).toList m.2) :
    Reads (Value.pretty level (.ofMembers members)).toList (.ofMembers members) := by
  rw [Value.ofMembers, Value.pretty, prettyMembers_eq]
  cases members with
  | nil =>
    exact reads_word (c := '{') (t := ['}']) (by simp [block]) ⟨rfl, by decide⟩ fun fuel rest => by
      simp [block, readValue, skipBlanks, isBlank]
  | cons m ms =>
    have hmembers : ∀ m' ∈ m :: ms, ReadsMember (memberText (level + 1) m').toList m' := fun m' hm => by
      obtain ⟨inside, hprint, htext⟩ := readText_printText m'.1
      exact ⟨inside, _, by simp [memberText, hprint], htext, h m' hm⟩
    have hparts : List.Forall₂ ReadsMember ((m :: ms).map fun m => (memberText (level + 1) m).toList) (m :: ms) :=
      forall₂_map hmembers
    have htexts : (ms.map (memberText (level + 1))).map String.toList =
        ms.map fun m => (memberText (level + 1) m).toList :=
      List.map_map
    obtain ⟨inside, t, hstart, -⟩ := hmembers m List.mem_cons_self
    rw [List.map_cons (f := memberText (level + 1)), toList_block (o := '{') (c := '}') rfl rfl, htexts, hstart]
    rw [List.map_cons, hstart] at hparts
    refine reads_bracketed ⟨rfl, by decide⟩ fun fuel hfuel rest => ?_
    have hread :=
      readMembers_intercalate (lineBreak_blank (level + 1)) (lineBreak_blank level) hparts fuel hfuel rest
    obtain ⟨t', hfirst⟩ := skipBlanks_parts (lineBreak_blank (level + 1)) (c := '\x22') rfl
      (inside ++ ':' :: ' ' :: t) (ms.map fun m => (memberText (level + 1) m).toList) ((lineBreak level).toList ++ '}' :: rest)
    rw [readValue, skipBlanks_cons rfl]
    simp only [hfirst]
    rw [hread]
    rfl

/-- A value is read from its text, at every level of nesting. -/
theorem Value.Proper.reads (h : v.Proper) (level : ℕ) : Reads (v.pretty level).toList v := by
  induction h generalizing level with
  | null =>
    refine reads_word (c := 'n') (t := ['u', 'l', 'l']) (by simp [Value.pretty]) ⟨rfl, by decide⟩
      fun fuel rest => ?_
    simp [Value.pretty, readValue, skipBlanks, isBlank]
  | bool b =>
    cases b with
    | false =>
      refine reads_word (c := 'f') (t := ['a', 'l', 's', 'e']) (by simp [Value.pretty]) ⟨rfl, by decide⟩
        fun fuel rest => ?_
      simp [Value.pretty, readValue, skipBlanks, isBlank]
    | true =>
      refine reads_word (c := 't') (t := ['r', 'u', 'e']) (by simp [Value.pretty]) ⟨rfl, by decide⟩
        fun fuel rest => ?_
      simp [Value.pretty, readValue, skipBlanks, isBlank]
  | number h => exact reads_number h
  | string s =>
    obtain ⟨inside, hprint, htext⟩ := readText_printText s
    have hpretty : (Value.pretty level (.ofString s)).toList = '\x22' :: inside := hprint
    refine reads_word (c := '\x22') hpretty ⟨rfl, by decide⟩ fun fuel rest => ?_
    rw [hpretty, List.cons_append, readValue, skipBlanks_cons rfl]
    simp only [htext]
    rfl
  | array _ ih => exact reads_array fun v hv => ih v hv (level + 1)
  | object _ ih => exact reads_object fun m hm => ih m hm (level + 1)

/-- A value is read back from the document that is written for it, with or without a line end behind it. -/
theorem parse?_pretty (h : v.Proper) (hblanks : ∀ c ∈ blanks, isBlank c = true) :
    parse? (v.pretty 0 ++ String.ofList blanks) = some v := by
  have hends : EndsNumber blanks := by
    rw [← List.append_nil blanks]
    exact endsNumber_append hblanks nofun
  let text := v.pretty 0 ++ String.ofList blanks
  have htext : text.toList = (v.pretty 0).toList ++ blanks := by simp [text]
  have hread := (h.reads 0).reads (2 * text.toList.length + 2)
    (by rw [htext, List.length_append]; omega) blanks hends
  have hrest : skipBlanks blanks = [] := by
    rw [← List.append_nil blanks, skipBlanks_append hblanks]
    rfl
  have hparse : parse? text = (readValue (2 * text.toList.length + 2) text.toList).bind
      fun r => if (skipBlanks r.2).isEmpty then some r.1 else none := rfl
  rw [← htext] at hread
  rw [hparse, hread]
  simp [hrest]

end Json

end DerivedSignal
