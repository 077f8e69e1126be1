import DerivedSignal.Proofs.EscapedText

namespace DerivedSignal

namespace Xml

namespace Cursor

theorem span_append {f : Char → Bool} {taken rest : List Char} (ht : ∀ a ∈ taken, f a = true)
    (hr : ∀ a ∈ rest.head?, f a = false) (p : Position) :
    span f ⟨taken ++ rest, p⟩ = (taken, ⟨rest, p.afterAll taken⟩) := by
  have hrest : rest.takeWhile f = [] ∧ rest.dropWhile f = rest := by
    cases rest with
    | nil => simp
    | cons a rest => simp [hr a rfl]
  simp only [span, List.takeWhile_append_of_pos ht, List.dropWhile_append_of_pos ht, hrest.1,
    hrest.2, List.append_nil]

theorem skipSpace_append {taken rest : List Char} (ht : ∀ a ∈ taken, isSpace a = true)
    (hr : ∀ a ∈ rest.head?, isSpace a = false) (p : Position) :
    skipSpace ⟨taken ++ rest, p⟩ = ⟨rest, p.afterAll taken⟩ := by
  rw [skipSpace, span_append ht hr]

theorem consume_cons (a : Char) (rest : List Char) (p : Position) :
    consume ⟨a :: rest, p⟩ a = .ok ⟨rest, p.after a⟩ := by
  simp [consume, next]

/-- A text reaches up to the character that stops it. -/
theorem scan_append {stop : List Char → Bool} {taken rest : List Char} {a : Char}
    (ht : ∀ b ∈ taken, isAllowed b = true ∧ ∀ tail, stop (b :: tail) = false)
    (ha : isAllowed a = true) (hs : stop (a :: rest) = true) (p : Position) :
    scan stop (taken ++ a :: rest) p = .ok (taken, ⟨a :: rest, p.afterAll taken⟩) := by
  induction taken generalizing p with
  | nil =>
    rw [List.nil_append, scan, ha, hs]
    rfl
  | cons b taken ih =>
    obtain ⟨hb, hstop⟩ := ht b List.mem_cons_self
    have htaken := ih (fun c hc => ht c (List.mem_cons_of_mem b hc)) (p.after b)
    rw [List.cons_append, scan, hb, hstop, htaken]
    rfl

end Cursor

/-- A name without a qualifier that is not reserved. -/
structure PlainName (s : String) : Prop where
  chars : ∀ a ∈ s.toList, isNameChar a = true ∧ a ≠ ':'
  start : ∃ a rest, s.toList = a :: rest ∧ isNameStart a = true
  reserved : s ≠ "xmlns"

namespace Reader

open Cursor

theorem name_plain {s : String} (h : PlainName s) {rest : List Char}
    (hr : ∀ a ∈ rest.head?, isNameChar a = false) (p : Position) :
    name ⟨s.toList ++ rest, p⟩ = .ok (⟨"", s⟩, ⟨rest, p.afterAll s.toList⟩) := by
  obtain ⟨a, tail, hs, ha⟩ := h.start
  have hcolon : ∀ b ∈ s.toList, decide (b ≠ ':') = true := fun b hb => decide_eq_true (h.chars b hb).2
  have hnot : s.toList.contains ':' = false := by
    simp only [List.contains_eq_mem, decide_eq_false_iff_not]
    exact fun hm => (h.chars ':' hm).2 rfl
  rw [name, span_append (fun b hb => (h.chars b hb).1) hr]
  simp only [List.takeWhile_eq_self_iff.mpr hcolon, List.dropWhile_eq_nil_iff.mpr hcolon, hnot]
  simp only [hs]
  simp only [ha, Bool.not_true, Bool.or_false, List.isEmpty_cons, Bool.false_eq_true, if_false]
  rw [← hs, String.ofList_toList]

theorem assignment_plain {s : String} (h : PlainName s) {cs : List Char}
    (hcs : ∀ a ∈ cs, isAllowed a = true) (rest : List Char) (p : Position) :
    ∃ q q', assignment ⟨s.toList ++ '=' :: '\x22' :: (escaped cs ++ '\x22' :: rest), p⟩ =
      .ok (⟨"", s⟩, escaped cs, q, ⟨rest, q'⟩) := by
  have hequal : ∀ a ∈ ('=' :: '\x22' :: (escaped cs ++ '\x22' :: rest)).head?,
      isNameChar a = false := by
    rintro a ⟨⟩
    rfl
  have hname := name_plain h hequal p
  have hvalue : ∀ q, text (fun s => s.head? == some '\x22' || s.head? == some '<')
      ⟨escaped cs ++ '\x22' :: rest, q⟩ = .ok (escaped cs, ⟨'\x22' :: rest, q.afterAll (escaped cs)⟩) := by
    intro q
    refine scan_append (fun b hb => ?_) rfl rfl q
    obtain ⟨hlt, -, hquote, hallowed⟩ := mem_escaped hb
    exact ⟨hallowed hcs, fun tail => by simp [hlt, hquote]⟩
  have hequals : ∀ q, equalsSign ⟨'=' :: '\x22' :: (escaped cs ++ '\x22' :: rest), q⟩ =
      .ok ⟨'\x22' :: (escaped cs ++ '\x22' :: rest), q.after '='⟩ := fun q => rfl
  have hmark : ∀ q, quoteMark ⟨'\x22' :: (escaped cs ++ '\x22' :: rest), q⟩ =
      .ok ('\x22', ⟨escaped cs ++ '\x22' :: rest, q.after '\x22'⟩) := fun q => rfl
  let q := ((p.afterAll s.toList).after '=').after '\x22'
  refine ⟨q, (q.afterAll (escaped cs)).after '\x22', ?_⟩
  simp only [assignment, hname, hequals, hmark, hvalue, consume_cons, bind, Except.bind, pure,
    Except.pure]
  rfl

/-- A name starts with nothing that has a meaning of its own in markup. -/
theorem ne_of_isNameStart {a : Char} (h : isNameStart a = true) :
    isSpace a = false ∧ a ≠ '/' ∧ a ≠ '>' ∧ a ≠ '!' ∧ a ≠ '?' := by
  refine ⟨?_, ?_, ?_, ?_, ?_⟩
  · simp only [isSpace, Bool.or_eq_false_iff, decide_eq_false_iff_not]
    refine ⟨⟨⟨?_, ?_⟩, ?_⟩, ?_⟩ <;> rintro rfl <;> exact absurd h (by decide)
  all_goals
    rintro rfl
    exact absurd h (by decide)

theorem header_opening (fuel : Nat) (h : Header) (rest : List Char) (p : Position) :
    header (fuel + 1) h ⟨'>' :: rest, p⟩ = .ok (h, .opening, ⟨rest, p.after '>'⟩) :=
  rfl

theorem add_plain {s : String} (hs : PlainName s) (h : Header) (value : String) (p : Position) :
    h.add ⟨"", s⟩ value p = .ok { h with attributes := ⟨⟨"", s⟩, value, p⟩ :: h.attributes } := by
  simp [Header.add, hs.reserved]

theorem header_attribute {s : String} (hs : PlainName s) {cs : List Char}
    (hcs : ∀ a ∈ cs, isAllowed a = true) (fuel : Nat) (h : Header) (rest : List Char) (p : Position) :
    ∃ q q', header (fuel + 1) h
        ⟨' ' :: (s.toList ++ '=' :: '\x22' :: (escaped cs ++ '\x22' :: rest)), p⟩ =
      header fuel { h with attributes := ⟨⟨"", s⟩, String.ofList (spaced cs), q⟩ :: h.attributes }
        ⟨rest, q'⟩ := by
  obtain ⟨a, tail, ha, hstart⟩ := hs.start
  obtain ⟨hspace, hslash, hclose, -, -⟩ := ne_of_isNameStart hstart
  obtain ⟨q, q', hread⟩ := assignment_plain hs hcs rest (p.after ' ')
  have hskip : skipSpace ⟨' ' :: (s.toList ++ '=' :: '\x22' :: (escaped cs ++ '\x22' :: rest)), p⟩ =
      ⟨s.toList ++ '=' :: '\x22' :: (escaped cs ++ '\x22' :: rest), p.after ' '⟩ := by
    have hblank : ∀ b ∈ [' '], isSpace b = true := by simp [isSpace]
    refine skipSpace_append hblank ?_ p
    simp [ha, hspace]
  have hvalue := readValue_escaped cs q
  refine ⟨p.after ' ', q', ?_⟩
  rw [header, if_neg (by simp)]
  simp only [hskip]
  split
  next he => simp [ha] at he
  next he =>
    simp only [ha, List.cons_append, List.cons.injEq] at he
    exact absurd he.1 hslash
  next he =>
    simp only [ha, List.cons_append, List.cons.injEq] at he
    exact absurd he.1 hclose
  next b tail' hb _ he =>
    rw [if_neg (by simp [atSpace, isSpace])]
    simp only [hread, hvalue, add_plain hs, bind, Except.bind]

theorem startTag_of_header {s : String} (hs : PlainName s) {outer : Scope} {rest : List Char}
    (hr : ∀ a ∈ rest.head?, isNameChar a = false) {attributes : List RawAttribute}
    {resolved : List Attribute} {c : Cursor} (p : Position)
    (hh : header (rest.length + 1) ⟨[], []⟩ ⟨rest, (p.after '<').afterAll s.toList⟩ =
      .ok (⟨[], attributes⟩, .opening, c))
    (ha : Header.resolve outer [] attributes.reverse = .ok resolved) :
    startTag outer ⟨'<' :: (s.toList ++ rest), p⟩ =
      .ok (⟨⟨"", s⟩, resolved, p.row, outer, []⟩, .opening, c) := by
  have hname := name_plain hs hr (p.after '<')
  have hnext : next ⟨'<' :: (s.toList ++ rest), p⟩ = ⟨s.toList ++ rest, p.after '<'⟩ := rfl
  simp only [startTag, hnext, hname, bind, Except.bind]
  rw [if_neg (by decide)]
  simp only [hh, List.nil_append, ha]
  rfl

theorem startTag_plain {s : String} (hs : PlainName s) (outer : Scope) (rest : List Char)
    (p : Position) :
    ∃ q, startTag outer ⟨'<' :: (s.toList ++ '>' :: rest), p⟩ =
      .ok (⟨⟨"", s⟩, [], p.row, outer, []⟩, .opening, ⟨rest, q⟩) :=
  ⟨_, startTag_of_header hs (by rintro a ⟨⟩; rfl) p (header_opening _ _ rest _) rfl⟩

theorem startTag_attribute {s a : String} (hs : PlainName s) (ha : PlainName a) {cs : List Char}
    (hcs : ∀ a ∈ cs, isAllowed a = true) (outer : Scope) (rest : List Char) (p : Position) :
    ∃ q, startTag outer ⟨'<' :: (s.toList ++ ' ' ::
        (a.toList ++ '=' :: '\x22' :: (escaped cs ++ '\x22' :: '>' :: rest))), p⟩ =
      .ok (⟨⟨"", s⟩, [⟨none, a, String.ofList (spaced cs)⟩], p.row, outer, []⟩, .opening, ⟨rest, q⟩) := by
  obtain ⟨q, q', hread⟩ := header_attribute ha hcs
    ((a.toList ++ '=' :: '\x22' :: (escaped cs ++ '\x22' :: '>' :: rest)).length + 1) ⟨[], []⟩
    ('>' :: rest) ((p.after '<').afterAll s.toList)
  rw [header_opening] at hread
  exact ⟨_, startTag_of_header hs (by rintro a ⟨⟩; rfl) p hread rfl⟩

theorem endTag_plain {s : String} (hs : PlainName s) (rest : List Char) (p : Position) :
    ∃ q, endTag ⟨'<' :: '/' :: (s.toList ++ '>' :: rest), p⟩ = .ok (⟨"", s⟩, ⟨rest, q⟩) := by
  have hclose : ∀ a ∈ ('>' :: rest).head?, isNameChar a = false := by
    rintro a ⟨⟩
    rfl
  have hname := name_plain hs hclose ((p.after '<').after '/')
  have hskip : skip 2 ⟨'<' :: '/' :: (s.toList ++ '>' :: rest), p⟩ =
      ⟨s.toList ++ '>' :: rest, (p.after '<').after '/'⟩ := rfl
  refine ⟨(((p.after '<').after '/').afterAll s.toList).after '>', ?_⟩
  simp only [endTag, hskip, hname, bind, Except.bind]
  rfl

theorem plainText_escaped {cs : List Char} (hcs : ∀ a ∈ cs, isAllowed a = true) (rest : List Char)
    (p : Position) :
    plainText ⟨escaped cs ++ '<' :: rest, p⟩ =
      .ok (String.ofList (lined cs), ⟨'<' :: rest, p.afterAll (escaped cs)⟩) := by
  have htext : text (fun s => s.head? == some '<') ⟨escaped cs ++ '<' :: rest, p⟩ =
      .ok (escaped cs, ⟨'<' :: rest, p.afterAll (escaped cs)⟩) := by
    refine scan_append (fun b hb => ?_) rfl rfl p
    obtain ⟨hlt, -, -, hallowed⟩ := mem_escaped hb
    exact ⟨hallowed hcs, fun tail => by simp [hlt]⟩
  have hend : hasSectionEnd (escaped cs) = false :=
    hasSectionEnd_of_not_mem fun hm => (mem_escaped hm).2.1 rfl
  have hread := readText_escaped cs p
  simp only [plainText, htext, hend, hread, bind, Except.bind]
  rfl

end Reader

end Xml

end DerivedSignal
