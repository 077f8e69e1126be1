import DerivedSignal.Document
import DerivedSignal.Proofs.ElementPlaces

namespace DerivedSignal

namespace Xml.Node

/-- The text of a node that is one. -/
def text? : Node → Option String
  | text content => some content
  | element _ _ _ _ => none

mutual

/-- A node and all that stands inside it, in the order of the text. -/
def descendants : Node → List Node
  | text content => [text content]
  | element name attributes row children =>
    element name attributes row children :: allDescendants children

/-- Some nodes and all that stands inside them. -/
def allDescendants : List Node → List Node
  | [] => []
  | n :: ns => descendants n ++ allDescendants ns

end

theorem join_append (ss ts : List String) : String.join (ss ++ ts) = String.join ss ++ String.join ts := by
  apply String.toList_inj.mp
  simp [String.toList_append]

mutual

/-- The text of a node is that of the texts inside it, joined. -/
theorem allText_eq (n : Node) : n.allText = String.join (n.descendants.filterMap text?) := by
  match n with
  | text content => simp [allText, descendants, text?, String.join]
  | element _ _ _ children =>
    rw [allText, descendants, allTexts_eq children]
    rfl

theorem allTexts_eq (ns : List Node) : allTexts ns = String.join ((allDescendants ns).filterMap text?) := by
  match ns with
  | [] => rfl
  | n :: ns =>
    rw [allTexts, allDescendants, List.filterMap_append, join_append, allText_eq n, allTexts_eq ns]

end

end Xml.Node

namespace Document

open Xml (Node)

/-- What an entry says under a tag: the texts inside the first of its children with that name, joined and
trimmed. -/
def field (entry : Node) (tag : String) : String :=
  match entry.children.find? fun child => child.name? == some tag with
  | some child => Text.trim (String.join (child.descendants.filterMap Node.text?))
  | none => ""

/-- The definition that an entry describes under a name. -/
def described (name : String) (entry : Node) : Definition :=
  ⟨name, field entry "linkedPlot", field entry "global", field entry "equation"⟩

/-- The last of some entries that has a name. -/
def lastNamed (name : String) (entries : List Node) : Option Node :=
  (entries.filter fun entry => entry.attribute? "name" == some name).getLast?

/-- Whether a child of the root is an entry without a name. -/
def isNameless (child : Node) : Bool :=
  child.name? == some "snippet" && (child.attribute? "name").isNone

theorem childText_eq (entry : Node) (tag : String) : childText entry tag = field entry tag := by
  unfold childText field
  rw [← List.head?_filter, ← Node.elements]
  cases entry.elements tag with
  | nil => rfl
  | cons child rest => simp [Node.allText_eq]

theorem definitionOf_eq (entry : Node) (name : String) : definitionOf entry name = described name entry := by
  simp only [definitionOf, described, childText_eq]
  rfl

theorem entryName_some {entry : Node} {name : String} (h : entry.attribute? "name" = some name) :
    entryName entry = .ok name := by
  simp [entryName, h]

theorem entryName_none {entry : Node} (h : entry.attribute? "name" = none) :
    entryName entry = .error (.document entry.row "<snippet> element without a name attribute") := by
  simp [entryName, h]

section

variable {α : Type} {read : Node → String → α} {entries : List Node} {m m' : NameMap α}

/-- Of the entries with a name the last one counts. -/
theorem find?_readEntries (h : readEntries read entries m = .ok m') (name : String) :
    m'.find? name = ((lastNamed name entries).map (read · name)).or (m.find? name) := by
  induction entries generalizing m with
  | nil =>
    cases h
    rfl
  | cons entry entries ih =>
    cases hname : entry.attribute? "name" with
    | none => simp [readEntries, entryName_none hname] at h
    | some key =>
      rw [readEntries, entryName_some hname] at h
      rw [ih h, NameMap.find?_insert, lastNamed, lastNamed, List.filter_cons, hname]
      by_cases hkey : key = name
      · subst hkey
        simp only [beq_self_eq_true, if_true, List.getLast?_cons]
        cases (entries.filter _).getLast? <;> rfl
      · simp [hkey]

/-- Reading the entries stops at the first one without a name. -/
theorem readEntries_eq_error_iff {e : Error} : readEntries read entries m = .error e ↔
    ∃ entry, entries.find? (fun entry => (entry.attribute? "name").isNone) = some entry ∧
      e = .document entry.row "<snippet> element without a name attribute" := by
  induction entries generalizing m with
  | nil => simp [readEntries]
  | cons entry entries ih =>
    cases hname : entry.attribute? "name" with
    | none => simp [readEntries, entryName_none hname, hname, eq_comm]
    | some key =>
      rw [readEntries, entryName_some hname, List.find?_cons_of_neg (by simp [hname])]
      exact ih

theorem exists_readEntries_iff : (∃ m', readEntries read entries m = .ok m') ↔
    ∀ entry ∈ entries, (entry.attribute? "name").isSome = true := by
  have herror {e : Error} := @readEntries_eq_error_iff _ read entries m e
  constructor
  · rintro ⟨m', hm'⟩ entry hentry
    by_contra hnone
    have hfound : (entries.find? fun entry => (entry.attribute? "name").isNone).isSome = true :=
      List.find?_isSome.mpr ⟨entry, hentry, by simpa using hnone⟩
    obtain ⟨nameless, hnameless⟩ := Option.isSome_iff_exists.mp hfound
    cases hm'.symm.trans (herror.mpr ⟨nameless, hnameless, rfl⟩)
  · intro hnamed
    cases hread : readEntries read entries m with
    | ok m' => exact ⟨m', rfl⟩
    | error e =>
      obtain ⟨entry, hentry, -⟩ := herror.mp hread
      have hsome := hnamed entry (List.mem_of_find?_eq_some hentry)
      have hnone := List.find?_some hentry
      simp_all

end

theorem readDefinitions_of_blank {text : String} (h : Text.allBlank text = true) :
    readDefinitions text = .ok NameMap.empty := by
  simp [readDefinitions, root?, h]

/-- What is read out of a well-formed document. -/
theorem readDefinitions_of_parse {text : String} {root : Node} (hblank : Text.allBlank text = false)
    (hroot : Xml.parse text = .ok root) :
    readDefinitions text =
      if root.name? = some "customMathEquations" then
        readEntries definitionOf (root.elements "snippet") NameMap.empty
      else .error (.document root.row
        ("expected root element <customMathEquations>, found <" ++ root.name?.getD "" ++ ">")) := by
  have hname : root.name?.getD "" = definitionsTag ↔ root.name? = some "customMathEquations" := by
    cases root.name? <;> simp [definitionsTag]
  have hfound : root? text = .ok (some root) := by simp [root?, hblank, hroot]
  rw [readDefinitions, hfound]
  exact if_congr hname rfl rfl

/-- The definitions of a text are accepted just if they can be read from it. -/
theorem accepted_iff (text : String) : (∃ m, readDefinitions text = .ok m) ↔
    Text.allBlank text = true ∨ ∃ root, Xml.parse text = .ok root ∧
      root.name? = some "customMathEquations" ∧
      ∀ child ∈ root.children, child.name? = some "snippet" → (child.attribute? "name").isSome = true := by
  cases hblank : Text.allBlank text with
  | true => simp [readDefinitions_of_blank hblank]
  | false =>
    cases hparse : Xml.parse text with
    | error fault => simp [readDefinitions, root?, hblank, hparse]
    | ok root =>
      rw [readDefinitions_of_parse hblank hparse]
      by_cases hname : root.name? = some "customMathEquations"
      · rw [if_pos hname, exists_readEntries_iff]
        simp [hname, Node.elements]
      · simp [hname]

/-- The first entry without a name is the first such child in the text. -/
theorem placed_of_find? {text : String} {scope : Xml.Scope} {start stop : Xml.Place text}
    {children : List (Xml.Place text × Node)} {root entry : Node}
    (hspelled : Xml.Spelled scope start children root stop)
    (hentry : (root.elements "snippet").find? (fun entry => (entry.attribute? "name").isNone) = some entry) :
    ∃ place, children.find? (fun child => isNameless child.2) = some (place, entry) := by
  rw [Node.elements, List.find?_filter, hspelled.children_eq, List.find?_map] at hentry
  obtain ⟨child, hchild, rfl⟩ := Option.map_eq_some_iff.mp hentry
  simp only [Bool.decide_and, Bool.decide_eq_true] at hchild
  exact ⟨child.1, hchild⟩

/-- A text is accepted just if it is blank, or a well-formed document whose root is named as it should be and
whose entries all have names. Then a name stands for what the last entry with it describes. Any other
well-formed document is refused on the row of its root, or on that of the first entry without a name. -/
theorem definitions_read_exactly (text : String) :
    ((∃ m, readDefinitions text = .ok m) ↔
      Text.allBlank text = true ∨ ∃ root, Xml.parse text = .ok root ∧
        root.name? = some "customMathEquations" ∧
        ∀ child ∈ root.children, child.name? = some "snippet" → (child.attribute? "name").isSome = true) ∧
    (Text.allBlank text = true → readDefinitions text = .ok NameMap.empty) ∧
    ∀ root, Text.allBlank text = false → Xml.parse text = .ok root →
      (∀ m, readDefinitions text = .ok m → ∀ name,
        m.find? name = (lastNamed name (root.elements "snippet")).map (described name)) ∧
      ∃ start children, Xml.Outline text start children root ∧
        ∀ e, readDefinitions text = .error e →
          (root.name? ≠ some "customMathEquations" ∧
            e = .document (1 + start.before.count '\n')
              ("expected root element <customMathEquations>, found <" ++ root.name?.getD "" ++ ">")) ∨
          (root.name? = some "customMathEquations" ∧ ∃ place entry,
            children.find? (fun child => isNameless child.2) = some (place, entry) ∧
            e = .document (1 + place.before.count '\n') "<snippet> element without a name attribute") := by
  refine ⟨accepted_iff text, readDefinitions_of_blank, fun root hblank hparse => ?_⟩
  obtain ⟨start, children, houtline⟩ := Xml.exists_outline hparse
  obtain ⟨stop, hspelled, -⟩ := houtline.root
  rw [readDefinitions_of_parse hblank hparse]
  refine ⟨fun m hm name => ?_, start, children, houtline, fun e he => ?_⟩
  · split at hm
    next =>
      rw [find?_readEntries hm name]
      simp [definitionOf_eq, NameMap.find?, NameMap.empty, NameMap.lookup]
    next => cases hm
  · split at he
    next hname =>
      obtain ⟨entry, hentry, rfl⟩ := readEntries_eq_error_iff.mp he
      obtain ⟨place, hplace⟩ := placed_of_find? hspelled hentry
      have hmem := List.mem_of_find?_eq_some hplace
      have hnameless := List.find?_some hplace
      simp only [isNameless, Bool.and_eq_true, beq_iff_eq] at hnameless
      have hrow := hspelled.child_row _ hmem (by simp [hnameless.1])
      exact .inr ⟨hname, place, entry, hplace, by rw [hrow]; rfl⟩
    next hname =>
      cases he
      exact .inl ⟨hname, by rw [hspelled.row]; rfl⟩

/-- An entry without a name is reported on its row, and not on that of the one in a comment before it. -/
theorem definitions_read_exactly_nameless :
    let text := "<customMathEquations>\n<!-- <snippet/>\n-->\n<snippet name='a'/>\n <snippet/> </customMathEquations>"
    ∃ root, Text.allBlank text = false ∧ Xml.parse text = .ok root ∧
      readDefinitions text = .error (.document 5 "<snippet> element without a name attribute") ∧
      ∃ start children, Xml.Outline text start children root ∧ ∃ place entry,
        children.find? (fun child => isNameless child.2) = some (place, entry) ∧
        place.before.count '\n' = 4 := by
  intro text
  have hblank : Text.allBlank text = false := by decide +kernel
  have hname : (Xml.parse text).toOption.bind Node.name? = some "customMathEquations" := by decide +kernel
  have hrefusal : (match readDefinitions text with | .ok _ => none | .error e => some e) =
      some (.document 5 "<snippet> element without a name attribute") := by decide +kernel
  have herror : readDefinitions text = .error (.document 5 "<snippet> element without a name attribute") := by
    cases hread : readDefinitions text <;> simp_all
  cases hparse : Xml.parse text with
  | error fault => simp [hparse, Except.toOption] at hname
  | ok root =>
    obtain ⟨-, -, hread⟩ := definitions_read_exactly text
    obtain ⟨-, start, children, houtline, hrefused⟩ := hread root hblank hparse
    refine ⟨root, hblank, rfl, herror, start, children, houtline, ?_⟩
    rcases hrefused _ herror with ⟨hother, -⟩ | ⟨-, place, entry, hplace, hrow⟩
    · exact absurd (by simpa [hparse, Except.toOption] using hname) hother
    · simp only [Error.document.injEq, and_true] at hrow
      exact ⟨place, entry, hplace, by omega⟩

end Document

end DerivedSignal
