import DerivedSignal.Proofs.TagReading

namespace DerivedSignal

namespace Xml

open Reader

/-- The element with further children. -/
def Frame.pushAll (f : Frame) (ns : List Node) : Frame := { f with children := ns.reverse ++ f.children }

theorem Frame.pushAll_append (f : Frame) (ns ms : List Node) :
    (f.pushAll ns).pushAll ms = f.pushAll (ns ++ ms) := by
  simp [pushAll]

/-- Reading content gets from one place to another, with whatever fuel there is. -/
def Steps (frame : Frame) (outer : List Frame) (c : Cursor) (frame' : Frame) (outer' : List Frame)
    (c' : Cursor) : Prop :=
  ∀ fuel, c.rest.length < fuel → ∃ fuel', c'.rest.length < fuel' ∧
    content fuel frame outer c = content fuel' frame' outer' c'

namespace Steps

variable {frame frame' frame'' : Frame} {outer outer' outer'' : List Frame} {c c' c'' : Cursor}

theorem refl : Steps frame outer c frame outer c := fun fuel h => ⟨fuel, h, rfl⟩

theorem trans (h : Steps frame outer c frame' outer' c')
    (h' : Steps frame' outer' c' frame'' outer'' c'') : Steps frame outer c frame'' outer'' c'' := by
  intro fuel hf
  obtain ⟨fuel', hf', he⟩ := h fuel hf
  obtain ⟨fuel'', hf'', he'⟩ := h' fuel' hf'
  exact ⟨fuel'', hf'', he.trans he'⟩

theorem of_step (h : ∀ fuel, content (fuel + 1) frame outer c = content fuel frame' outer' c')
    (hl : c'.rest.length < c.rest.length) : Steps frame outer c frame' outer' c' := by
  intro fuel hf
  obtain ⟨n, rfl⟩ : ∃ n, fuel = n + 1 := ⟨fuel - 1, by omega⟩
  exact ⟨n, by omega, h n⟩

theorem text {cs : List Char} (hne : cs ≠ []) (hcs : ∀ a ∈ cs, isAllowed a = true) (rest : List Char)
    (p : Position) :
    Steps frame outer ⟨escaped cs ++ '<' :: rest, p⟩
      (frame.push (.text (String.ofList (lined cs)))) outer
      ⟨'<' :: rest, p.afterAll (escaped cs)⟩ := by
  have hread := plainText_escaped hcs rest p
  cases he : escaped cs with
  | nil => exact absurd (escaped_eq_nil.mp he) hne
  | cons a tail =>
    -- Every branch of the reader but the last is about a `<`.
    have ha : a ≠ '<' := (mem_escaped (he ▸ List.mem_cons_self)).1
    rw [he] at hread
    refine of_step (fun fuel => ?_) (by simp)
    rw [content]
    split
    next hr => cases hr
    next hr => simp_all
    next hr => simp_all
    next hr => simp_all
    next hr => simp_all
    next hr => simp_all
    next => simp only [hread, bind, Except.bind]

theorem opening {a : Char} {tail : List Char} {p : Position} {inner : Frame}
    (ha : isNameStart a = true)
    (h : startTag frame.scope ⟨'<' :: a :: tail, p⟩ = .ok (inner, .opening, c'))
    (hl : c'.rest.length < tail.length + 2) :
    Steps frame outer ⟨'<' :: a :: tail, p⟩ inner (frame :: outer) c' := by
  obtain ⟨-, hslash, -, hbang, hquestion⟩ := ne_of_isNameStart ha
  refine of_step (fun fuel => ?_) (by simp only [List.length_cons]; omega)
  rw [content]
  split
  next hr => cases hr
  next hr => simp_all
  next hr => simp_all
  next hr => simp_all
  next hr => simp_all
  next => simp only [h, bind, Except.bind]
  next => simp_all

theorem closing {s : String} (hs : PlainName s) (hn : frame.name = ⟨"", s⟩) (parent : Frame)
    (rest : List Char) (p : Position) :
    ∃ q, Steps frame (parent :: outer) ⟨'<' :: '/' :: (s.toList ++ '>' :: rest), p⟩
      (parent.push frame.toNode) outer ⟨rest, q⟩ := by
  obtain ⟨q, hread⟩ := endTag_plain hs rest p
  refine ⟨q, of_step (fun fuel => ?_) (by simp; omega)⟩
  simp only [content, hread, hn, bind, Except.bind]
  rw [if_neg (by simp)]

end Steps

/-- The end tag of the outermost element ends the reading. -/
theorem content_closing {s : String} (hs : PlainName s) {frame : Frame} (hn : frame.name = ⟨"", s⟩)
    (fuel : Nat) (rest : List Char) (p : Position) :
    ∃ q, content (fuel + 1) frame [] ⟨'<' :: '/' :: (s.toList ++ '>' :: rest), p⟩ =
      .ok (frame.toNode, ⟨rest, q⟩) := by
  obtain ⟨q, hread⟩ := endTag_plain hs rest p
  refine ⟨q, ?_⟩
  simp only [content, hread, hn, bind, Except.bind]
  rw [if_neg (by simp)]
  rfl

/-- Reading `s`, where `follow` holds of what comes behind it, adds nodes with a property to the
element around it. -/
def Reads (follow : List Char → Prop) (s : List Char) (added : List Node → Prop) : Prop :=
  ∀ frame outer rest p, follow rest → ∃ ns q, added ns ∧
    Steps frame outer ⟨s ++ rest, p⟩ (frame.pushAll ns) outer ⟨rest, q⟩

theorem Reads.mono {follow : List Char → Prop} {s : List Char} {added added' : List Node → Prop}
    (h : Reads follow s added) (ha : ∀ ns, added ns → added' ns) : Reads follow s added' := by
  intro frame outer rest p hr
  obtain ⟨ns, q, hns, hsteps⟩ := h frame outer rest p hr
  exact ⟨ns, q, ha ns hns, hsteps⟩

/-- What a tag begins with. -/
def AtTag (rest : List Char) : Prop := rest.head? = some '<'

/-- The node of a text, none if it is empty. -/
def textNodes (cs : List Char) : List Node := if cs = [] then [] else [.text (String.ofList cs)]

theorem reads_text {cs : List Char} (hcs : ∀ a ∈ cs, isAllowed a = true) :
    Reads AtTag (escaped cs) (· = textNodes (lined cs)) := by
  intro frame outer rest p hr
  obtain ⟨tail, rfl⟩ : ∃ tail, rest = '<' :: tail := by
    cases rest with
    | nil => cases hr
    | cons a tail => exact ⟨tail, by rw [Option.some.inj hr]⟩
  by_cases hne : cs = []
  · subst hne
    exact ⟨[], p, rfl, Steps.refl⟩
  · have hlined := mt lined_eq_nil.mp hne
    exact ⟨[.text (String.ofList (lined cs))], _, by simp [textNodes, hlined],
      Steps.text hne hcs tail p⟩

/-- A text that is read as a start tag. -/
structure Opens (s : List Char) (tag : String) (attributes : List Attribute) : Prop where
  plain : PlainName tag
  start : ∃ a tail, s = '<' :: a :: tail ∧ isNameStart a = true
  reads : ∀ outer rest p, ∃ q, startTag outer ⟨s ++ rest, p⟩ =
    .ok (⟨⟨"", tag⟩, attributes, p.row, outer, []⟩, .opening, ⟨rest, q⟩)

/-- The end tag of a name. -/
def endText (tag : String) : List Char := '<' :: '/' :: (tag.toList ++ ['>'])

/-- An element, whose content is what is read between its tags. -/
theorem reads_element {s inside : List Char} {tag : String} {attributes : List Attribute}
    {added : List Node → Prop} (ho : Opens s tag attributes) (hi : Reads AtTag inside added) :
    Reads (fun _ => True) (s ++ (inside ++ endText tag)) fun ns =>
      ∃ row children, ns = [.element tag attributes row children] ∧ added children := by
  intro frame outer rest p _
  obtain ⟨a, tail, rfl, ha⟩ := ho.start
  obtain ⟨q, hopen⟩ := ho.reads frame.scope (inside ++ (endText tag ++ rest)) p
  obtain ⟨ns, q', hns, hsteps⟩ := hi ⟨⟨"", tag⟩, attributes, p.row, frame.scope, []⟩
    (frame :: outer) (endText tag ++ rest) q rfl
  let inner := Frame.pushAll ⟨⟨"", tag⟩, attributes, p.row, frame.scope, []⟩ ns
  have hname : inner.name = ⟨"", tag⟩ := rfl
  have hnode : inner.toNode = .element tag attributes p.row ns := by
    simp [inner, Frame.toNode, Frame.pushAll]
  obtain ⟨q'', hclosing⟩ : ∃ q'', Steps inner (frame :: outer) ⟨endText tag ++ rest, q'⟩
      (frame.push inner.toNode) outer ⟨rest, q''⟩ := by
    simpa [endText] using Steps.closing ho.plain hname frame rest q'
  have hopening : Steps frame outer
      ⟨'<' :: a :: (tail ++ (inside ++ (endText tag ++ rest))), p⟩
      ⟨⟨"", tag⟩, attributes, p.row, frame.scope, []⟩ (frame :: outer)
      ⟨inside ++ (endText tag ++ rest), q⟩ :=
    Steps.opening ha hopen (by simp only [List.length_append]; omega)
  refine ⟨[inner.toNode], q'', ⟨p.row, ns, by rw [hnode], hns⟩, ?_⟩
  have hshape : '<' :: a :: tail ++ (inside ++ endText tag) ++ rest =
      '<' :: a :: (tail ++ (inside ++ (endText tag ++ rest))) := by
    simp
  rw [hshape]
  exact hopening.trans (hsteps.trans hclosing)

/-- The elements among some nodes are as described, one by one. -/
def Elements (described : List (Node → Prop)) (ns : List Node) : Prop :=
  List.Forall₂ (fun d n => d n) described (ns.filter fun n => n.name?.isSome)

theorem elements_textNodes (cs : List Char) : Elements [] (textNodes cs) := by
  unfold Elements textNodes
  split <;> exact List.Forall₂.nil

theorem elements_singleton {d : Node → Prop} {tag : String} {attributes : List Attribute}
    {row : Nat} {children : List Node} (h : d (.element tag attributes row children)) :
    Elements [d] [.element tag attributes row children] :=
  List.Forall₂.cons h List.Forall₂.nil

theorem elements_append {ds es : List (Node → Prop)} {ns ms : List Node} (h : Elements ds ns)
    (h' : Elements es ms) : Elements (ds ++ es) (ns ++ ms) := by
  rw [Elements, List.filter_append]
  exact List.rel_append h h'

theorem reads_append {follow between : List Char → Prop} {s s' : List Char}
    {ds es : List (Node → Prop)} (h : Reads between s (Elements ds))
    (h' : Reads follow s' (Elements es)) (hb : ∀ rest, between (s' ++ rest)) :
    Reads follow (s ++ s') (Elements (ds ++ es)) := by
  intro frame outer rest p hr
  obtain ⟨ns, q, hns, hsteps⟩ := h frame outer (s' ++ rest) p (hb rest)
  obtain ⟨ms, q', hms, hsteps'⟩ := h' (frame.pushAll ns) outer rest q hr
  rw [Frame.pushAll_append] at hsteps'
  exact ⟨ns ++ ms, q', elements_append hns hms, by rw [List.append_assoc]; exact hsteps.trans hsteps'⟩

/-- The line end and the blanks before a tag. -/
def margin (level : Nat) : List Char := '\n' :: (indentation level).toList

theorem mem_margin {level : Nat} {a : Char} (h : a ∈ margin level) : a = '\n' ∨ a = ' ' := by
  simp only [margin, indentation, String.toList_ofList, List.mem_cons, List.mem_replicate] at h
  exact h.imp_right And.right

theorem reads_margin (level : Nat) : Reads AtTag (margin level) (Elements []) := by
  have hescaped : escaped (margin level) = margin level := by
    refine escaped_of_plain fun a ha => ?_
    rcases mem_margin ha with rfl | rfl <;> rfl
  have hcs : ∀ a ∈ margin level, isAllowed a = true := by
    intro a ha
    rcases mem_margin ha with rfl | rfl <;> rfl
  intro frame outer rest p hr
  obtain ⟨ns, q, rfl, hsteps⟩ := reads_text hcs frame outer rest p hr
  rw [hescaped] at hsteps
  exact ⟨_, q, elements_textNodes (lined (margin level)), hsteps⟩

theorem reads_line {s : List Char} {d : Node → Prop} (level : Nat)
    (h : Reads (fun _ => True) s (Elements [d])) (hs : s.head? = some '<') :
    Reads (fun _ => True) (margin level ++ s) (Elements [d]) := by
  refine reads_append (reads_margin level) h fun rest => ?_
  rw [AtTag, List.head?_append, hs]
  rfl

theorem reads_lines {α : Type} {items : List α} {f : α → List Char} {d : α → Node → Prop}
    (h : ∀ a ∈ items, Reads (fun _ => True) (f a) (Elements [d a])) :
    Reads (fun _ => True) (items.flatMap f) (Elements (items.map d)) := by
  induction items with
  | nil => exact fun frame outer rest p _ => ⟨[], p, List.Forall₂.nil, Steps.refl⟩
  | cons a items ih =>
    have hitems := ih fun b hb => h b (List.mem_cons_of_mem a hb)
    rw [List.flatMap_cons, List.map_cons]
    exact reads_append (h a List.mem_cons_self) hitems fun _ => trivial

theorem opens_plain {tag : String} (ht : PlainName tag) :
    Opens ('<' :: (tag.toList ++ ['>'])) tag [] := by
  obtain ⟨a, tail, ha, hstart⟩ := ht.start
  refine ⟨ht, ⟨a, tail ++ ['>'], by rw [ha]; rfl, hstart⟩, fun outer rest p => ?_⟩
  obtain ⟨q, hq⟩ := startTag_plain ht outer rest p
  exact ⟨q, by simpa using hq⟩

theorem opens_attribute {tag name value : String} (ht : PlainName tag) (hn : PlainName name)
    (hv : ∀ a ∈ value.toList, isAllowed a = true) :
    Opens ('<' :: (tag.toList ++ (attributeText (name, value)).toList ++ ['>'])) tag
      [⟨none, name, rereadValue value⟩] := by
  obtain ⟨a, tail, ha, hstart⟩ := ht.start
  refine ⟨ht, ⟨a, _, by rw [ha]; rfl, hstart⟩, fun outer rest p => ?_⟩
  obtain ⟨q, hq⟩ := startTag_attribute ht hn hv outer rest p
  exact ⟨q, by simpa [attributeText, toList_escape, rereadValue] using hq⟩

/-- An element without attributes that holds a text. -/
def IsLeaf (tag content : String) (n : Node) : Prop :=
  ∃ row, n = .element tag [] row (textNodes content.toList)

theorem reads_leaf {tag content : String} (ht : PlainName tag)
    (hc : ∀ a ∈ content.toList, isAllowed a = true) (level : Nat) :
    Reads (fun _ => True) ('\n' :: (leaf level tag content).toList)
      (Elements [IsLeaf tag (rereadText content)]) := by
  have helement : Reads (fun _ => True)
      ('<' :: (tag.toList ++ ['>']) ++ (escaped content.toList ++ endText tag))
      (Elements [IsLeaf tag (rereadText content)]) := by
    refine (reads_element (opens_plain ht) (reads_text hc)).mono ?_
    rintro ns ⟨row, children, rfl, rfl⟩
    exact elements_singleton ⟨row, by rw [rereadText, String.toList_ofList]⟩
  have hline := reads_line level helement rfl
  simpa [leaf, margin, endText, toList_escape] using hline

/-- An element with a name that holds the described elements. -/
def IsEntry (tag name : String) (described : List (Node → Prop)) (n : Node) : Prop :=
  ∃ row children, n = .element tag [⟨none, "name", name⟩] row children ∧
    Elements described children

theorem reads_entry {tag name : String} {inside : List String} {described : List (Node → Prop)}
    (ht : PlainName tag) (hn : PlainName "name")
    (hv : ∀ a ∈ name.toList, isAllowed a = true)
    (hi : Reads (fun _ => True) (inside.flatMap fun l => '\n' :: l.toList) (Elements described))
    (level : Nat) :
    Reads (fun _ => True)
      ((block level tag [("name", name)] inside).flatMap fun l => '\n' :: l.toList)
      (Elements [IsEntry tag (rereadValue name) described]) := by
  have hinside := reads_append hi (reads_margin level) fun _ => trivial
  rw [List.append_nil] at hinside
  have helement : Reads (fun _ => True)
      ('<' :: (tag.toList ++ (attributeText ("name", name)).toList ++ ['>']) ++
        ((inside.flatMap fun l => '\n' :: l.toList) ++ margin level ++ endText tag))
      (Elements [IsEntry tag (rereadValue name) described]) := by
    refine (reads_element (opens_attribute ht hn hv) hinside).mono ?_
    rintro ns ⟨row, children, rfl, hc⟩
    exact elements_singleton ⟨row, children, rfl, hc⟩
  have hline := reads_line level helement rfl
  simpa [block, margin, endText, String.join] using hline

end Xml

end DerivedSignal
