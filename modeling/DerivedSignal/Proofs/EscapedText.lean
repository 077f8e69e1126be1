import DerivedSignal.Xml.Reader
import DerivedSignal.Xml.Writer
import Mathlib

namespace DerivedSignal

namespace Xml

/-- A text that may stand in a document. -/
def Allowed (s : String) : Prop := ∀ a ∈ s.toList, isAllowed a = true

/-- The characters that are written as references. -/
def isMarkup (c : Char) : Bool :=
  c = '<' || c = '>' || c = '&' || c = '\x27' || c = '\x22'

/-- How a character comes back from its escaped form. -/
def pieceOf (c : Char) : Piece := if isMarkup c then .referenced c else .plain c

/-- The escaped form of some characters. -/
def escaped (cs : List Char) : List Char := cs.flatMap escapeChar

theorem toList_escape (s : String) : (escape s).toList = escaped s.toList := by
  simp [escape, escaped]

theorem escapeChar_plain {c : Char} (h : isMarkup c = false) : escapeChar c = [c] := by
  simp only [isMarkup, Bool.or_eq_false_iff, decide_eq_false_iff_not] at h
  unfold escapeChar
  split <;> simp_all

theorem read?_escapeChar {c : Char} (h : isMarkup c = true) (rest : List Char) :
    ∃ body, escapeChar c = '&' :: body ∧ Reference.read? (body ++ rest) = some (.char c, rest) := by
  simp only [isMarkup, Bool.or_eq_true, decide_eq_true_eq] at h
  rcases h with (((rfl | rfl) | rfl) | rfl) | rfl <;>
    exact ⟨_, rfl, by rfl⟩

theorem pieces_reference {c : Char} {s rest : List Char}
    (h : Reference.read? s = some (.char c, rest)) (p : Position) :
    ∃ q, pieces ('&' :: s) p = (pieces rest q).map (.referenced c :: ·) := by
  rw [pieces, if_pos rfl]
  split
  next hn => simp [h] at hn
  next hn => simp [h] at hn
  next hn =>
    rw [h] at hn
    cases hn
    refine ⟨p.afterAll (('&' :: s).take (s.length + 1 - rest.length)), ?_⟩
    split
    next he => rw [he]; rfl
    next ho => rw [ho]; rfl

theorem pieces_plain {c : Char} (h : c ≠ '&') (s : List Char) (p : Position) :
    pieces (c :: s) p = (pieces s (p.after c)).map (.plain c :: ·) := by
  rw [pieces, if_neg h]
  cases pieces s (p.after c) <;> rfl

theorem pieces_escaped (cs : List Char) (p : Position) :
    pieces (escaped cs) p = .ok (cs.map pieceOf) := by
  induction cs generalizing p with
  | nil =>
    rw [escaped, List.flatMap_nil, pieces]
    rfl
  | cons c cs ih =>
    rw [escaped, List.flatMap_cons, ← escaped, List.map_cons, pieceOf]
    cases hc : isMarkup c with
    | true =>
      obtain ⟨body, hb, hr⟩ := read?_escapeChar hc (escaped cs)
      obtain ⟨q, hq⟩ := pieces_reference hr p
      rw [hb, List.cons_append, hq, ih q]
      rfl
    | false =>
      have hne : c ≠ '&' := by
        rintro rfl
        cases hc
      rw [escapeChar_plain hc, List.singleton_append, pieces_plain hne, ih]
      rfl

/-- A text as it is read from its escaped form. -/
def lined (cs : List Char) : List Char := uniformLines false false (cs.map pieceOf)

/-- An attribute's value as it is read from its escaped form. -/
def spaced (cs : List Char) : List Char := attributeValue (cs.map pieceOf)

theorem readText_escaped (cs : List Char) (p : Position) :
    readText (escaped cs) p = .ok (String.ofList (lined cs)) := by
  rw [readText, pieces_escaped, Except.map, lined]

theorem readValue_escaped (cs : List Char) (p : Position) :
    readValue (escaped cs) p = .ok (String.ofList (spaced cs)) := by
  rw [readValue, pieces_escaped, Except.map, spaced]

/-- A text that has been written and read. -/
def rereadText (s : String) : String := String.ofList (lined s.toList)

/-- An attribute's value that has been written and read. -/
def rereadValue (s : String) : String := String.ofList (spaced s.toList)

theorem uniformLines_eq_nil {held verbatim : Bool} {ps : List Piece} :
    uniformLines held verbatim ps = [] ↔ held = false ∧ ps = [] := by
  induction ps generalizing held verbatim with
  | nil => cases held <;> simp [uniformLines]
  | cons piece ps ih =>
    cases piece with
    | referenced c => by_cases hc : c = '\x0d' <;> simp [uniformLines, hc, ih]
    | plain c =>
      by_cases hc : c = '\x0d' <;> cases held <;> cases verbatim <;> cases ps <;>
        simp [uniformLines, hc, ih]

theorem lined_eq_nil {cs : List Char} : lined cs = [] ↔ cs = [] := by
  simp [lined, uniformLines_eq_nil]

/-- Whatever follows a carriage return is written as a reference. -/
def ReturnsHeld (cs : List Char) : Prop := cs.IsChain fun a b => a = '\r' → isMarkup b = true

instance (cs : List Char) : Decidable (ReturnsHeld cs) := inferInstanceAs (Decidable (List.IsChain _ cs))

/-- A carriage return that is held back comes out in front of a reference. -/
theorem uniformLines_of_returnsHeld {cs : List Char} (h : ReturnsHeld cs)
    (hend : cs.getLast? ≠ some '\r') :
    (∀ verbatim, uniformLines false verbatim (cs.map pieceOf) = cs) ∧
    (cs.head?.any isMarkup = true → uniformLines true false (cs.map pieceOf) = '\r' :: cs) := by
  induction cs with
  | nil => exact ⟨fun _ => rfl, fun hm => by cases hm⟩
  | cons c cs ih =>
    obtain ⟨hnext, hcs⟩ := List.isChain_cons.mp h
    have hlast : cs.getLast? ≠ some '\r' := fun hm => hend (by simp [List.getLast?_cons, hm])
    obtain ⟨hfree, hheld⟩ := ih hcs hlast
    constructor
    · intro verbatim
      by_cases hc : c = '\r'
      · subst hc
        cases cs with
        | nil => simp at hend
        | cons d cs =>
          have hd := hheld (by simpa using hnext d rfl rfl)
          rw [List.map_cons] at hd
          rw [List.map_cons, show pieceOf '\r' = .plain '\r' from rfl]
          cases verbatim <;> simp [uniformLines, hd]
      · rw [List.map_cons, pieceOf]
        cases isMarkup c with
        | true => simp [uniformLines, hc, hfree]
        | false => cases verbatim <;> simp [uniformLines, hc, hfree]
    · intro hm
      have hc : c ≠ '\r' := by
        rintro rfl
        cases hm
      have hmarkup : isMarkup c = true := by simpa using hm
      simp [pieceOf, hmarkup, uniformLines, hc, hfree]

theorem lined_of_returnsHeld {cs : List Char} (h : ReturnsHeld cs) (hend : cs.getLast? ≠ some '\r') :
    lined cs = cs :=
  (uniformLines_of_returnsHeld h hend).1 false

/-- Without carriage returns, a text is read as it was before it was escaped. -/
theorem lined_of_not_mem {cs : List Char} (h : '\r' ∉ cs) : lined cs = cs := by
  refine lined_of_returnsHeld ?_ fun hm => h (List.mem_of_getLast? hm)
  have hpairs : cs.Pairwise fun a b => a = '\r' → isMarkup b = true :=
    List.pairwise_of_forall_mem_list fun a ha b _ hr => absurd (hr ▸ ha) h
  exact hpairs.isChain

theorem returnsHeld_cons {c : Char} {cs : List Char} (hc : c ≠ '\r') :
    ReturnsHeld (c :: cs) ↔ ReturnsHeld cs := by
  simp [ReturnsHeld, List.isChain_cons, hc]

theorem returnsHeld_return {c : Char} {cs : List Char} :
    ReturnsHeld ('\r' :: c :: cs) ↔ isMarkup c = true ∧ ReturnsHeld (c :: cs) := by
  simp [ReturnsHeld, List.isChain_cons_cons]

/-- Every other carriage return is gone once a text has been read. -/
theorem returnsHeld_uniformLines (cs : List Char) {held verbatim : Bool}
    (h : held = true → verbatim = false) : ReturnsHeld (uniformLines held verbatim (cs.map pieceOf)) := by
  induction cs generalizing held verbatim with
  | nil => cases held <;> simp [uniformLines, ReturnsHeld]
  | cons c cs ih =>
    have hfree : ∀ verbatim, ReturnsHeld (uniformLines false verbatim (cs.map pieceOf)) := fun _ =>
      ih (by simp)
    have hheld : ReturnsHeld (uniformLines true false (cs.map pieceOf)) := ih (by simp)
    rw [List.map_cons, pieceOf]
    cases hm : isMarkup c with
    | true =>
      have hc : c ≠ '\r' := by
        rintro rfl
        cases hm
      have hout := (returnsHeld_cons hc).mpr (hfree true)
      cases held with
      | false => simpa [uniformLines, hc] using hout
      | true => simpa [uniformLines, hc] using returnsHeld_return.mpr ⟨hm, hout⟩
    | false =>
      -- What follows the line end or the carriage return that may stand in front of it.
      have hrest : ReturnsHeld (if c = '\r' then
            (if (cs.map pieceOf).isEmpty then ['\n'] else uniformLines true false (cs.map pieceOf))
          else if held && c = '\n' then uniformLines false false (cs.map pieceOf)
          else c :: uniformLines false false (cs.map pieceOf)) := by
        split
        next =>
          split
          next => simp [ReturnsHeld]
          next => exact hheld
        next hc =>
          split
          next => exact hfree false
          next => exact (returnsHeld_cons hc).mpr (hfree false)
      simp only [Bool.false_eq_true, if_false, uniformLines]
      split
      next hv =>
        have hheld' : held = false := by
          cases held
          · rfl
          · simp [h rfl] at hv
        subst hheld'
        rw [if_neg (by simp), List.nil_append]
        split
        next => exact hheld
        next hc => exact (returnsHeld_cons hc).mpr (hfree false)
      next =>
        split
        next => exact (returnsHeld_cons (by decide)).mpr hrest
        next => exact hrest

/-- Without tabs and line ends, neither is an attribute changed. -/
theorem spaced_of_spaces {cs : List Char} (h : ∀ c ∈ cs, isSpace c = true → c = ' ') :
    spaced cs = cs := by
  unfold spaced
  induction cs with
  | nil => rfl
  | cons c cs ih =>
    have hc := h c List.mem_cons_self
    have hcs := ih fun d hd => h d (List.mem_cons_of_mem c hd)
    have hreturn : c ≠ '\x0d' := by
      rintro rfl
      cases hc rfl
    rw [List.map_cons, pieceOf]
    cases hm : isMarkup c with
    | true => simp [attributeValue, hcs]
    | false =>
      have hspace : (if isSpace c then ' ' else c) = c := by
        split
        next hs => exact (hc hs).symm
        next => rfl
      simp only [Bool.false_eq_true, if_false]
      rw [attributeValue, hcs, hspace]
      intros
      simp_all

/-- No character of an escaped text ends it. -/
theorem mem_escaped {cs : List Char} {a : Char} (h : a ∈ escaped cs) :
    a ≠ '<' ∧ a ≠ '>' ∧ a ≠ '\x22' ∧ ((∀ c ∈ cs, isAllowed c = true) → isAllowed a = true) := by
  obtain ⟨c, hc, ha⟩ := List.mem_flatMap.mp h
  cases hm : isMarkup c with
  | false =>
    rw [escapeChar_plain hm, List.mem_singleton] at ha
    subst ha
    simp only [isMarkup, Bool.or_eq_false_iff, decide_eq_false_iff_not] at hm
    exact ⟨hm.1.1.1.1, hm.1.1.1.2, hm.2, fun hall => hall a hc⟩
  | true =>
    have hentity : (escapeChar c).all (fun b =>
        b != '<' && b != '>' && b != '\x22' && isAllowed b) = true := by
      simp only [isMarkup, Bool.or_eq_true, decide_eq_true_eq] at hm
      rcases hm with (((rfl | rfl) | rfl) | rfl) | rfl <;> rfl
    have hb := List.all_eq_true.mp hentity a ha
    simp only [Bool.and_eq_true, bne_iff_ne] at hb
    obtain ⟨⟨⟨hlt, hgt⟩, hquote⟩, hallowed⟩ := hb
    exact ⟨hlt, hgt, hquote, fun _ => hallowed⟩

theorem escaped_eq_nil {cs : List Char} : escaped cs = [] ↔ cs = [] := by
  cases cs with
  | nil => simp [escaped]
  | cons c cs =>
    have hne : escapeChar c ≠ [] := by
      cases hm : isMarkup c with
      | false => simp [escapeChar_plain hm]
      | true =>
        obtain ⟨body, hb, -⟩ := read?_escapeChar hm []
        simp [hb]
    simp [escaped, hne]

theorem escaped_of_plain {cs : List Char} (h : ∀ a ∈ cs, isMarkup a = false) : escaped cs = cs := by
  induction cs with
  | nil => rfl
  | cons c cs ih =>
    have hcs := ih fun a ha => h a (List.mem_cons_of_mem c ha)
    rw [escaped, List.flatMap_cons, ← escaped, hcs, escapeChar_plain (h c List.mem_cons_self)]
    rfl

theorem hasSectionEnd_of_not_mem {cs : List Char} (h : '>' ∉ cs) :
    Reader.hasSectionEnd cs = false := by
  induction cs with
  | nil => rfl
  | cons c cs ih =>
    obtain ⟨-, hcs⟩ := List.ne_and_not_mem_of_not_mem_cons h
    rw [Reader.hasSectionEnd]
    · exact ih hcs
    · rintro rest rfl rfl
      simp at hcs

end Xml

end DerivedSignal
