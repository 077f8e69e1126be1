import DerivedSignal.Document
import DerivedSignal.Proofs.DocumentReading

namespace DerivedSignal

open Xml

/-- A definition as it is read: the blanks at the ends of its texts are gone. -/
def Definition.trimmed (d : Definition) : Definition :=
  ⟨d.name, Text.trim d.linked, Text.trim d.globals, Text.trim d.expression⟩

/-- A snippet as it is read: the blanks at the ends of its texts are gone. -/
def Snippet.trimmed (s : Snippet) : Snippet := ⟨s.name, Text.trim s.globals, Text.trim s.equation⟩

/-- A definition that has been written and read. -/
def Definition.reread (d : Definition) : Definition :=
  ⟨rereadValue d.name, Text.trim (rereadText d.linked), Text.trim (rereadText d.globals),
    Text.trim (rereadText d.expression)⟩

/-- A snippet that has been written and read. -/
def Snippet.reread (s : Snippet) : Snippet :=
  ⟨rereadValue s.name, Text.trim (rereadText s.globals), Text.trim (rereadText s.equation)⟩

namespace Document

/-- A name that an attribute holds as it is. -/
def NameFits (s : String) : Prop :=
  ∀ a ∈ s.toList, isAllowed a = true ∧ a ≠ '\t' ∧ a ≠ '\n' ∧ a ≠ '\r'

/-- A text that an element holds as it is. -/
def TextFits (s : String) : Prop := ∀ a ∈ s.toList, isAllowed a = true ∧ a ≠ '\r'

/-- The texts of a definition are held as they are. -/
structure DefinitionFits (d : Definition) : Prop where
  name : NameFits d.name
  linked : TextFits d.linked
  globals : TextFits d.globals
  expression : TextFits d.expression

instance (s : String) : Decidable (NameFits s) := List.decidableBAll _ s.toList

instance (s : String) : Decidable (TextFits s) := List.decidableBAll _ s.toList

instance (d : Definition) : Decidable (DefinitionFits d) :=
  decidable_of_iff
    (NameFits d.name ∧ TextFits d.linked ∧ TextFits d.globals ∧ TextFits d.expression)
    ⟨fun ⟨hn, hl, hg, he⟩ => ⟨hn, hl, hg, he⟩, fun h => ⟨h.name, h.linked, h.globals, h.expression⟩⟩

/-- The texts of a snippet are held as they are. -/
structure SnippetFits (s : Snippet) : Prop where
  name : NameFits s.name
  globals : TextFits s.globals
  equation : TextFits s.equation

/-- The names that documents are written with. -/
def names : List String :=
  ["name", entryTag, linkedTag, globalsTag, expressionTag, definitionsTag, snippetsTag]

theorem plainName_of_mem_names {s : String} (h : s ∈ names) : PlainName s := by
  have hchars : names.all (fun s => s.toList.all fun a => isNameChar a && a != ':') = true := rfl
  have hstarts : names.all (fun s => s.toList.head?.any isNameStart) = true := rfl
  have hstart := List.all_eq_true.mp hstarts s h
  refine ⟨fun a ha => ?_, ?_, ?_⟩
  · simpa using List.all_eq_true.mp (List.all_eq_true.mp hchars s h) a ha
  · cases hs : s.toList with
    | nil => simp [hs] at hstart
    | cons a rest => exact ⟨a, rest, rfl, by simpa [hs] using hstart⟩
  · rintro rfl
    exact absurd h (by decide)

theorem allTexts_textNodes (s : String) : Node.allTexts (textNodes s.toList) = s := by
  unfold textNodes
  split
  next h =>
    rw [Node.allTexts, ← String.ofList_toList (s := s), h]
  next => simp [Node.allTexts, Node.allText]

theorem firstText_of_leaves {fields : List (String × String)} {ns : List Node}
    (h : List.Forall₂ (fun f n => IsLeaf f.1 f.2 n) fields ns) (tag : String) :
    (match ns.filter fun n => n.name? == some tag with
      | child :: _ => Text.trim child.allText
      | [] => "") = ((fields.lookup tag).map Text.trim).getD "" := by
  induction h with
  | nil => rfl
  | @cons f n fields ns hn _ ih =>
    obtain ⟨row, rfl⟩ := hn
    obtain ⟨name, content⟩ := f
    by_cases ht : name = tag
    · subst ht
      simp [Node.name?, Node.allText, allTexts_textNodes]
    · have hbeq : (tag == name) = false := by simpa using Ne.symm ht
      rw [List.filter_cons_of_neg (by simpa [Node.name?] using ht), ih, List.lookup_cons, hbeq]

theorem childText_of_isEntry {name : String} {fields : List (String × String)} {entry : Node}
    (h : IsEntry entryTag name (fields.map fun f => IsLeaf f.1 f.2) entry) (tag : String) :
    childText entry tag = ((fields.lookup tag).map Text.trim).getD "" := by
  obtain ⟨row, children, rfl, hc⟩ := h
  have hleaves : List.Forall₂ (fun f n => IsLeaf f.1 f.2 n) fields
      (children.filter fun n => n.name?.isSome) := List.forall₂_map_left_iff.mp hc
  have hfilter : (children.filter fun n => n.name?.isSome).filter (fun n => n.name? == some tag) =
      children.filter fun n => n.name? == some tag := by
    rw [List.filter_filter]
    refine List.filter_congr fun n _ => ?_
    cases n.name? <;> simp
  rw [← firstText_of_leaves hleaves tag, hfilter]
  rfl

theorem entryName_of_isEntry {name : String} {described : List (Node → Prop)} {entry : Node}
    (h : IsEntry entryTag name described entry) : entryName entry = .ok name := by
  obtain ⟨row, children, rfl, -⟩ := h
  rfl

theorem name?_of_forall₂ {described : List (Node → Prop)} {ns : List Node} {tag : String}
    (h : List.Forall₂ (fun d n => d n) described ns)
    (hd : ∀ d ∈ described, ∀ n, d n → n.name? = some tag) : ∀ n ∈ ns, n.name? = some tag := by
  induction h with
  | nil => simp
  | @cons d n ds ns hn _ ih =>
    intro k hk
    rcases List.mem_cons.mp hk with rfl | hk
    · exact hd d List.mem_cons_self k hn
    · exact ih (fun d' hd' => hd d' (List.mem_cons_of_mem d hd')) k hk

theorem elements_of_entries {described : List (Node → Prop)} {root : Node}
    (h : Elements described root.children)
    (hd : ∀ d ∈ described, ∀ n, d n → n.name? = some entryTag) :
    List.Forall₂ (fun d n => d n) described (root.elements entryTag) := by
  have hname := name?_of_forall₂ h hd
  have hfilter : root.elements entryTag = root.children.filter fun n => n.name?.isSome := by
    refine List.filter_congr fun n hn => ?_
    cases hs : n.name?.isSome with
    | false => cases hm : n.name? <;> simp_all
    | true => simp [hname n (List.mem_filter.mpr ⟨hn, hs⟩)]
  rw [hfilter]
  exact h

theorem readEntries_of_forall₂ {α : Type} {read : Node → String → α}
    {entries : List (String × α)} {ns : List Node}
    (h : List.Forall₂ (fun e n => entryName n = .ok e.1 ∧ read n e.1 = e.2) entries ns)
    (m : NameMap α) :
    readEntries read ns m = .ok (entries.foldl (fun m e => m.insert e.1 e.2) m) := by
  induction h generalizing m with
  | nil => rfl
  | @cons e n entries ns hn _ ih =>
    obtain ⟨hname, hread⟩ := hn
    rw [readEntries, hname]
    simp only [hread]
    exact ih (m.insert e.1 e.2)

/-- The entries of a document, with the fields of their values, are read one after another. -/
theorem readEntries_of_entries {α : Type} (name : α → String) (fields : α → List (String × String))
    {read : Node → String → α} {value : α → α} {items : List α} {root : Node}
    (h : Elements (items.map fun a =>
      IsEntry entryTag (name a) ((fields a).map fun f => IsLeaf f.1 f.2)) root.children)
    (hread : ∀ a n, IsEntry entryTag (name a) ((fields a).map fun f => IsLeaf f.1 f.2) n →
      read n (name a) = value a) :
    readEntries read (root.elements entryTag) NameMap.empty =
      .ok (NameMap.ofList (items.map fun a => (name a, value a))) := by
  have helements := elements_of_entries h (by
    intro d hd n hn
    obtain ⟨a, -, rfl⟩ := List.mem_map.mp hd
    obtain ⟨row, children, rfl, -⟩ := hn
    rfl)
  refine readEntries_of_forall₂ (List.forall₂_map_left_iff.mpr ?_) NameMap.empty
  refine (List.forall₂_map_left_iff.mp helements).imp fun a n hn => ?_
  exact ⟨entryName_of_isEntry hn, hread a n hn⟩

theorem allBlank_document (lines : List String) : Text.allBlank (Xml.document lines) = false := by
  rw [Text.allBlank, Xml.document, toList_intercalate]
  rfl

theorem parse_entries {tag : String} (ht : tag ∈ names)
    {items : List (String × List (String × String))}
    (hitems : ∀ e ∈ items, Allowed e.1 ∧ ∀ f ∈ e.2, f.1 ∈ names ∧ Allowed f.2) :
    ∃ row children,
      parse (Xml.document (block 0 tag [] (items.flatMap fun e => entryLines e.1 e.2))) =
        .ok (.element tag [] row children) ∧
      Elements (items.map fun e =>
        IsEntry entryTag (rereadValue e.1) (e.2.map fun f => IsLeaf f.1 (rereadText f.2))) children := by
  refine parse_document (plainName_of_mem_names ht) ?_
  rw [List.flatMap_assoc]
  refine reads_lines fun e he => ?_
  obtain ⟨hname, hfields⟩ := hitems e he
  have hinside : Reads (fun _ => True)
      ((e.2.map fun f => leaf 2 f.1 f.2).flatMap fun l => '\n' :: l.toList)
      (Elements (e.2.map fun f => IsLeaf f.1 (rereadText f.2))) := by
    rw [List.flatMap_map]
    refine reads_lines fun f hf => ?_
    obtain ⟨htag, htext⟩ := hfields f hf
    exact reads_leaf (plainName_of_mem_names htag) htext 2
  have hentry : PlainName entryTag := plainName_of_mem_names (by simp [names])
  have hattribute : PlainName "name" := plainName_of_mem_names (by simp [names])
  exact reads_entry hentry hattribute hname hinside 1

/-- The elements of a definition, with their texts. -/
def definitionFields (d : Definition) : List (String × String) :=
  [(linkedTag, d.linked), (globalsTag, d.globals), (expressionTag, d.expression)]

/-- The elements of a snippet, with their texts. -/
def snippetFields (s : Snippet) : List (String × String) :=
  [(globalsTag, s.globals), (expressionTag, s.equation)]

/-- A written document has a root with its entries, and these are read one after another. -/
theorem root?_written {α : Type} {tag : String} (ht : tag ∈ names) {name : α → String}
    {fields : α → List (String × String)} {read : Node → String → α} {reread : α → α} {items : List α}
    (hallowed : ∀ a ∈ items, Allowed (name a) ∧ ∀ f ∈ fields a, f.1 ∈ names ∧ Allowed f.2)
    (hread : ∀ a n, IsEntry entryTag (rereadValue (name a))
      ((fields a).map fun f => IsLeaf f.1 (rereadText f.2)) n → read n (rereadValue (name a)) = reread a) :
    ∃ root, root? (Xml.document (block 0 tag []
        (items.flatMap fun a => entryLines (name a) (fields a)))) = .ok (some root) ∧
      root.name? = some tag ∧
      readEntries read (root.elements entryTag) NameMap.empty =
        .ok (NameMap.ofList (items.map fun a => (rereadValue (name a), reread a))) := by
  have hitems : ∀ e ∈ items.map fun a => (name a, fields a),
      Allowed e.1 ∧ ∀ f ∈ e.2, f.1 ∈ names ∧ Allowed f.2 := by
    intro e he
    obtain ⟨a, ha, rfl⟩ := List.mem_map.mp he
    exact hallowed a ha
  obtain ⟨row, children, hparse, hchildren⟩ := parse_entries ht hitems
  rw [List.flatMap_map] at hparse
  rw [List.map_map] at hchildren
  refine ⟨.element tag [] row children, ?_, rfl, ?_⟩
  · rw [root?, allBlank_document, hparse]
    rfl
  · refine readEntries_of_entries (fun a => rereadValue (name a))
      (fun a => (fields a).map fun f => (f.1, rereadText f.2)) ?_ ?_
    · simpa only [Node.children, List.map_map, Function.comp_def] using hchildren
    · simpa only [List.map_map, Function.comp_def] using hread

theorem definitionOf_isEntry {d : Definition} {entry : Node}
    (h : IsEntry entryTag (rereadValue d.name)
      ((definitionFields d).map fun f => IsLeaf f.1 (rereadText f.2)) entry) :
    definitionOf entry (rereadValue d.name) = d.reread := by
  have hfields : IsEntry entryTag (rereadValue d.name) (((definitionFields d).map fun f =>
      (f.1, rereadText f.2)).map fun f => IsLeaf f.1 f.2) entry := by
    simpa only [List.map_map]
  simp only [definitionOf, childText_of_isEntry hfields]
  rfl

theorem snippetOf_isEntry {s : Snippet} {entry : Node}
    (h : IsEntry entryTag (rereadValue s.name)
      ((snippetFields s).map fun f => IsLeaf f.1 (rereadText f.2)) entry) :
    snippetOf entry (rereadValue s.name) = s.reread := by
  have hfields : IsEntry entryTag (rereadValue s.name) (((snippetFields s).map fun f =>
      (f.1, rereadText f.2)).map fun f => IsLeaf f.1 f.2) entry := by
    simpa only [List.map_map]
  simp only [snippetOf, childText_of_isEntry hfields]
  rfl

/-- The texts of a definition may stand in a document. -/
structure DefinitionAllowed (d : Definition) : Prop where
  name : Allowed d.name
  linked : Allowed d.linked
  globals : Allowed d.globals
  expression : Allowed d.expression

/-- Written definitions are read, some perhaps under a new name. -/
theorem readDefinitions_rewritten {m : NameMap Definition} (h : ∀ d ∈ m.values, DefinitionAllowed d) :
    readDefinitions (writeDefinitions m) =
      .ok (NameMap.ofList (m.values.map fun d => (rereadValue d.name, d.reread))) := by
  have hallowed : ∀ d ∈ m.values, Allowed d.name ∧
      ∀ f ∈ definitionFields d, f.1 ∈ names ∧ Allowed f.2 := by
    intro d hd
    obtain ⟨hname, hlinked, hglobals, hexpression⟩ := h d hd
    exact ⟨hname, by simp [definitionFields, names, hlinked, hglobals, hexpression]⟩
  obtain ⟨root, hroot, hname, hread⟩ := root?_written
    (show definitionsTag ∈ names by simp [names]) hallowed fun _ _ => definitionOf_isEntry
  have hwritten : root? (writeDefinitions m) = .ok (some root) := hroot
  rw [readDefinitions, hwritten]
  simp only [hname, Option.getD_some, if_true, hread]

/-- Written snippets are read, some perhaps under a new name. -/
theorem readSnippets_rewritten {m : NameMap Snippet}
    (h : ∀ s ∈ m.values, Allowed s.name ∧ Allowed s.globals ∧ Allowed s.equation) :
    readSnippets (writeSnippets m) =
      .ok (NameMap.ofList (m.values.map fun s => (rereadValue s.name, s.reread))) := by
  have hallowed : ∀ s ∈ m.values, Allowed s.name ∧
      ∀ f ∈ snippetFields s, f.1 ∈ names ∧ Allowed f.2 := by
    intro s hs
    obtain ⟨hname, hglobals, hequation⟩ := h s hs
    exact ⟨hname, by simp [snippetFields, names, hglobals, hequation]⟩
  obtain ⟨root, hroot, -, hread⟩ := root?_written
    (show snippetsTag ∈ names by simp [names]) hallowed fun _ _ => snippetOf_isEntry
  have hwritten : root? (writeSnippets m) = .ok (some root) := hroot
  rw [readSnippets, hwritten]
  exact hread

theorem NameFits.allowed {s : String} (h : NameFits s) : Allowed s := fun a ha => (h a ha).1

theorem TextFits.allowed {s : String} (h : TextFits s) : Allowed s := fun a ha => (h a ha).1

theorem NameFits.reread {s : String} (h : NameFits s) : rereadValue s = s := by
  have hspaces : ∀ a ∈ s.toList, isSpace a = true → a = ' ' := by
    intro a ha hs
    obtain ⟨-, htab, hline, hreturn⟩ := h a ha
    simpa [isSpace, htab, hline, hreturn] using hs
  rw [rereadValue, spaced_of_spaces hspaces, String.ofList_toList]

theorem TextFits.reread {s : String} (h : TextFits s) : rereadText s = s := by
  rw [rereadText, lined_of_not_mem fun hm => (h '\r' hm).2 rfl, String.ofList_toList]

/-- Values that come back under their own names make up the map that they were written from. -/
theorem ofList_reread {α : Type} {m : NameMap α} {name : α → String} {reread value : α → α}
    (keyed : ∀ e ∈ m.entries, name e.2 = e.1)
    (h : ∀ a ∈ m.values, rereadValue (name a) = name a ∧ reread a = value a) :
    NameMap.ofList (m.values.map fun a => (rereadValue (name a), reread a)) = m.mapValues value := by
  have hentries : (m.values.map fun a => (rereadValue (name a), reread a)) =
      (m.mapValues value).entries := by
    rw [NameMap.values, List.map_map]
    refine List.map_congr_left fun e he => ?_
    obtain ⟨hname, hvalue⟩ := h e.2 (List.mem_map_of_mem he)
    rw [Function.comp_apply, hname, hvalue, keyed e he]
  rw [hentries, NameMap.ofList_entries]

theorem readDefinitions_written {m : NameMap Definition} (keyed : ∀ e ∈ m.entries, e.2.name = e.1)
    (hfits : ∀ d ∈ m.values, DefinitionFits d) :
    readDefinitions (writeDefinitions m) = .ok (m.mapValues Definition.trimmed) := by
  rw [readDefinitions_rewritten fun d hd => ⟨(hfits d hd).name.allowed, (hfits d hd).linked.allowed,
    (hfits d hd).globals.allowed, (hfits d hd).expression.allowed⟩]
  refine congrArg Except.ok (ofList_reread keyed fun d hd => ?_)
  obtain ⟨hname, hlinked, hglobals, hexpression⟩ := hfits d hd
  simp only [Definition.reread, Definition.trimmed, hname.reread, hlinked.reread, hglobals.reread,
    hexpression.reread, and_self]

theorem readSnippets_written {m : NameMap Snippet} (keyed : ∀ e ∈ m.entries, e.2.name = e.1)
    (hfits : ∀ s ∈ m.values, SnippetFits s) :
    readSnippets (writeSnippets m) = .ok (m.mapValues Snippet.trimmed) := by
  rw [readSnippets_rewritten fun s hs => ⟨(hfits s hs).name.allowed, (hfits s hs).globals.allowed,
    (hfits s hs).equation.allowed⟩]
  refine congrArg Except.ok (ofList_reread keyed fun s hs => ?_)
  obtain ⟨hname, hglobals, hequation⟩ := hfits s hs
  simp only [Snippet.reread, Snippet.trimmed, hname.reread, hglobals.reread, hequation.reread, and_self]

/-- Definitions and snippets are read back as they were written, without the blanks at the ends of
their texts. Texts that have none are read back unchanged. -/
theorem documents_round_trip :
    (∀ m : NameMap Definition, (∀ e ∈ m.entries, e.2.name = e.1) →
      (∀ d ∈ m.values, DefinitionFits d) →
      readDefinitions (writeDefinitions m) = .ok (m.mapValues Definition.trimmed) ∧
        ((∀ d ∈ m.values, d.trimmed = d) → readDefinitions (writeDefinitions m) = .ok m)) ∧
    (∀ m : NameMap Snippet, (∀ e ∈ m.entries, e.2.name = e.1) →
      (∀ s ∈ m.values, SnippetFits s) →
      readSnippets (writeSnippets m) = .ok (m.mapValues Snippet.trimmed) ∧
        ((∀ s ∈ m.values, s.trimmed = s) → readSnippets (writeSnippets m) = .ok m)) := by
  constructor
  · intro m keyed hfits
    have hread := readDefinitions_written keyed hfits
    exact ⟨hread, fun htrimmed => by rw [hread, NameMap.mapValues_eq_self htrimmed]⟩
  · intro m keyed hfits
    have hread := readSnippets_written keyed hfits
    exact ⟨hread, fun htrimmed => by rw [hread, NameMap.mapValues_eq_self htrimmed]⟩

/-- Markup, quotes, references and the end of a section are no different from other text. -/
theorem documents_round_trip_markup :
    readDefinitions (writeDefinitions (NameMap.empty.insert " \"a\" < b "
        ⟨" \"a\" < b ", "x & y\n", "", " ]]> &amp; 'é' "⟩)) =
      .ok (NameMap.empty.insert " \"a\" < b " ⟨" \"a\" < b ", "x & y", "", "]]> &amp; 'é'"⟩) ∧
    readSnippets (writeSnippets (NameMap.empty.insert "&lt; " ⟨"&lt; ", "p < q", "]]>"⟩)) =
      .ok (NameMap.empty.insert "&lt; " ⟨"&lt; ", "p < q", "]]>"⟩) := by
  constructor
  · refine (documents_round_trip.1 _ ?_ ?_).1
    · simp [NameMap.empty, NameMap.insert, NameMap.place]
    · simp [NameMap.empty, NameMap.insert, NameMap.place, NameMap.values]
      constructor <;> simp [NameFits, TextFits, isAllowed]
  · refine (documents_round_trip.2 _ ?_ ?_).2 ?_
    · simp [NameMap.empty, NameMap.insert, NameMap.place]
    · simp [NameMap.empty, NameMap.insert, NameMap.place, NameMap.values]
      constructor <;> simp [NameFits, TextFits, isAllowed]
    · simp [NameMap.empty, NameMap.insert, NameMap.place, NameMap.values]
      rfl

end Document

end DerivedSignal
