import DerivedSignal.Proofs.ReadableTexts
import DerivedSignal.Proofs.Resaving
import DerivedSignal.Storage

namespace DerivedSignal

open Xml

namespace Xml

theorem allowed_append_iff {s t : String} : Allowed (s ++ t) ↔ Allowed s ∧ Allowed t := by
  simp only [Allowed, String.toList_append, List.mem_append, or_imp, forall_and]

theorem isAllowed_of_isMarkup {a : Char} (h : isMarkup a = true) : isAllowed a = true := by
  simp only [isMarkup, Bool.or_eq_true, decide_eq_true_eq] at h
  rcases h with (((rfl | rfl) | rfl) | rfl) | rfl <;> rfl

/-- Escaping hides no character that must not stand in a document. -/
theorem allowed_of_escape {s : String} (h : Allowed (escape s)) : Allowed s := by
  intro a ha
  cases hm : isMarkup a with
  | true => exact isAllowed_of_isMarkup hm
  | false =>
    refine h a ?_
    rw [toList_escape, escaped, List.mem_flatMap]
    exact ⟨a, ha, by rw [escapeChar_plain hm]; exact List.mem_singleton_self a⟩

theorem allowed_of_leaf {level : Nat} {tag content : String} (h : Allowed (leaf level tag content)) :
    Allowed content := by
  simp only [leaf, allowed_append_iff] at h
  exact allowed_of_escape h.1.1.1.2

theorem allowed_of_document {lines : List String} (h : Allowed (document lines)) :
    ∀ l ∈ lines, Allowed l := by
  intro l hl a ha
  refine h a ?_
  rw [document, toList_intercalate, List.mem_append, List.mem_flatMap]
  exact .inr ⟨l, hl, List.mem_cons_of_mem _ ha⟩

end Xml

namespace Document

theorem allowed_of_entryLines {name : String} {fields : List (String × String)}
    (h : ∀ l ∈ entryLines name fields, Allowed l) : Allowed name ∧ ∀ f ∈ fields, Allowed f.2 := by
  obtain ⟨hopening, hinside⟩ := List.forall_mem_cons.mp h
  refine ⟨?_, fun f hf => ?_⟩
  · simp only [List.map_cons, List.map_nil, String.join_cons, attributeText, allowed_append_iff] at hopening
    exact allowed_of_escape hopening.1.2.1.1.2
  · exact allowed_of_leaf (hinside _ (List.mem_append_left _ (List.mem_map_of_mem hf)))

theorem allowed_of_writeDefinitions {m : NameMap Definition} (h : Allowed (writeDefinitions m)) :
    ∀ d ∈ m.values, DefinitionAllowed d := by
  intro d hd
  have hlines : ∀ l ∈ entryLines d.name (definitionFields d), Allowed l := fun l hl =>
    allowed_of_document h l (List.mem_cons_of_mem _ (List.mem_append_left _
      (List.mem_flatMap.mpr ⟨d, hd, hl⟩)))
  obtain ⟨hname, hfields⟩ := allowed_of_entryLines hlines
  simp only [definitionFields, List.forall_mem_cons] at hfields
  exact ⟨hname, hfields.1, hfields.2.1, hfields.2.2.1⟩

theorem root?_error {text : String} {e : Error} (h : root? text = .error e) :
    ∃ row message, e = .document row message := by
  unfold root? at h
  split at h
  next => cases h
  next =>
    split at h
    next => cases h
    next =>
      cases h
      exact ⟨_, _, rfl⟩

theorem readEntries_error {α : Type} {read : Node → String → α} {ns : List Node} {m : NameMap α}
    {e : Error} (h : readEntries read ns m = .error e) : ∃ row message, e = .document row message := by
  induction ns generalizing m with
  | nil => cases h
  | cons n ns ih =>
    unfold readEntries at h
    split at h
    next hn =>
      cases h
      unfold entryName at hn
      split at hn
      next => cases hn
      next =>
        cases hn
        exact ⟨_, _, rfl⟩
    next => exact ih h

theorem readDefinitions_error {text : String} {e : Error} (h : readDefinitions text = .error e) :
    ∃ row message, e = .document row message := by
  unfold readDefinitions at h
  split at h
  next hroot =>
    cases h
    exact root?_error hroot
  next => cases h
  next =>
    simp only at h
    split at h
    next => exact readEntries_error h
    next =>
      cases h
      exact ⟨_, _, rfl⟩

theorem readable_iff (m : NameMap Definition) :
    (∃ m', readDefinitions (writeDefinitions m) = .ok m') ↔ ∀ d ∈ m.values, DefinitionAllowed d := by
  constructor
  · rintro ⟨m', h⟩
    refine allowed_of_writeDefinitions ?_
    unfold readDefinitions at h
    cases hroot : root? (writeDefinitions m) with
    | error e =>
      rw [hroot] at h
      cases h
    | ok root =>
      rw [writeDefinitions, root?, allBlank_document, if_neg Bool.false_ne_true] at hroot
      split at hroot
      next hparse => exact allowed_of_parse hparse
      next => cases hroot
  · exact fun h => ⟨_, readDefinitions_rewritten h⟩

theorem names_reread {m m' : NameMap Definition} (h : readDefinitions (writeDefinitions m) = .ok m')
    (n : String) : n ∈ m'.names ↔ ∃ d ∈ m.values, rereadValue d.name = n := by
  have hread := readDefinitions_rewritten ((readable_iff m).mp ⟨m', h⟩)
  obtain rfl := Except.ok.inj (h.symm.trans hread)
  simp only [NameMap.mem_names_ofList, List.map_map, List.mem_map, Function.comp_apply]

theorem same_names_iff {m m' : NameMap Definition} (h : readDefinitions (writeDefinitions m) = .ok m') :
    (∀ n, n ∈ m'.names ↔ ∃ d ∈ m.values, d.name = n) ↔
      ∀ d ∈ m.values, ∀ a ∈ d.name.toList, isSpace a = true → a = ' ' := by
  constructor
  · intro hsame d hd
    obtain ⟨d', -, hname⟩ := (names_reread h d.name).mp ((hsame d.name).mpr ⟨d, hd, rfl⟩)
    refine rereadValue_eq_self.mp ?_
    rw [← hname, rereadValue_rereadValue]
  · intro hspaces n
    rw [names_reread h]
    refine exists_congr fun d => and_congr_right fun hd => ?_
    rw [rereadValue_eq_self.mpr (hspaces d hd)]

end Document

namespace FileTree

variable {t t' : FileTree} {path text : String} {l l' : Location}

/-- The tree with a file at a location, over an older one. -/
def put (t : FileTree) (l : Location) (content : ByteArray) : FileTree :=
  { t with files := (l, content) :: t.files.filter fun f => f.1 ≠ l }

theorem lookup_put (t : FileTree) (l l' : Location) (content : ByteArray) :
    (t.put l content).files.lookup l' = if l' = l then some content else t.files.lookup l' := by
  rw [put, List.lookup_cons]
  split
  next h => rw [if_pos (beq_iff_eq.mp h)]
  next h =>
    have hne : l' ≠ l := fun he => by simp [he] at h
    rw [if_neg hne]
    induction t.files with
    | nil => rfl
    | cons f files ih =>
      by_cases hf : f.1 = l
      · have hother : (l' == f.1) = false := by simpa [hf] using hne
        rw [List.filter_cons_of_neg (by simpa using hf), ih, List.lookup_cons, hother]
      · rw [List.filter_cons_of_pos (by simpa using hf), List.lookup_cons, List.lookup_cons, ih]

/-- A file that is not in the place of a directory leaves the directories where they are. -/
theorem directory_put {content : ByteArray} (hl : t.entry? l ≠ some .directory)
    (h : t.entry? l' = some .directory) : FileTree.entry? (t.put l content) l' = some .directory := by
  have hne : l' ≠ l := fun he => hl (he ▸ h)
  unfold entry? at h ⊢
  rw [lookup_put, if_neg hne]
  split at h
  next => cases h
  next hnone =>
    refine if_pos ?_
    simp only [ite_eq_left_iff, reduceCtorEq, imp_false, Decidable.not_not, Bool.or_eq_true,
      List.any_eq_true] at h ⊢
    rcases h with hdir | ⟨f, hf, hprefix⟩
    · exact .inl hdir
    · by_cases hfl : f.1 = l
      · exact .inr ⟨(l, content), List.mem_cons_self, hfl ▸ hprefix⟩
      · exact .inr ⟨f, List.mem_cons_of_mem _ (List.mem_filter.mpr ⟨hf, by simpa using hfl⟩), hprefix⟩

theorem walk_put {content : ByteArray} (hl : t.entry? l ≠ some .directory) {start : Location}
    {parts : List String} (h : t.walk start parts = .ok l') :
    (t.put l content).walk start parts = .ok l' := by
  induction parts generalizing start with
  | nil => exact h
  | cons part parts ih =>
    unfold walk at h ⊢
    split at h
    next => cases h
    next => cases h
    next hdir =>
      rw [directory_put hl hdir]
      simp only
      split at h
      next hhere => rw [if_pos hhere, ih h]
      next hhere =>
        rw [if_neg hhere]
        split at h
        next hup => rw [if_pos hup, ih h]
        next hup => rw [if_neg hup, ih h]

theorem fromUTF8?_toUTF8 (s : String) : String.fromUTF8? s.toUTF8 = some s := by
  have hvalid : s.toUTF8.IsValidUTF8 := s.isValidUTF8
  rw [String.fromUTF8?, dif_pos hvalid]
  rfl

theorem readText_put (hlocate : t.locate path = .ok l) (hl : t.entry? l ≠ some .directory) :
    (t.put l text.toUTF8).readText path = .ok text := by
  have hfile : FileTree.entry? (t.put l text.toUTF8) l = some (.file text.toUTF8) := by
    rw [ entry?, lookup_put, if_pos rfl]
  have hplace : (t.put l text.toUTF8).locate path = .ok l := by
    unfold locate at hlocate ⊢
    split at hlocate
    next => cases hlocate
    next hpath => rw [if_neg hpath, walk_put hl hlocate]
  rw [readText, read, hplace]
  simp only [hfile, Except.bind, FileFault.decode, fromUTF8?_toUTF8]

/-- What has been written to a file is read from it. -/
theorem readText_write (h : t.write path text = .ok t') : t'.readText path = .ok text := by
  unfold write at h
  split at h
  next => cases h
  next => cases h
  next hlocate =>
    split at h
    next => cases h
    next hentry =>
      cases h
      exact readText_put hlocate hentry

end FileTree

namespace Storage

theorem write_of_saveDefinitions {path : String} {m : NameMap Definition} {t t' : FileTree}
    (h : (saveDefinitions path m).run t = (t', .ok ())) :
    t.write path (Document.writeDefinitions m) = .ok t' := by
  simp only [saveDefinitions, writeFile, Dialogue.writeText, bind, Dialogue.andThen, Dialogue.run] at h
  cases hwrite : t.write path (Document.writeDefinitions m) with
  | error e => simp [hwrite, Dialogue.answered, Dialogue.run, pure] at h
  | ok t₁ =>
    simp only [hwrite, Dialogue.answered, Dialogue.run, pure, Prod.mk.injEq, and_true] at h
    rw [h]

/-- Of a file that definitions have been saved to, just their document is read. -/
theorem load_of_saveDefinitions {path : String} {m : NameMap Definition} {t t' : FileTree}
    (h : (saveDefinitions path m).run t = (t', .ok ())) :
    (loadDefinitions path).run t' = (t', Document.readDefinitions (Document.writeDefinitions m)) ∧
      ∀ (s : TransformSet) (r : Registry),
        (loadSet path s r).run t' = (t', s.loadDocument r (Document.writeDefinitions m)) := by
  have hread := FileTree.readText_write (write_of_saveDefinitions h)
  simp only [loadDefinitions, loadSet, readFile, Dialogue.readText, bind, Dialogue.andThen, Dialogue.run,
    hread, pure, Except.bind, and_self, implies_true]

end Storage

namespace Document

/-- Definitions that are saved can be loaded again just if every character of their texts may stand in a
document; otherwise there is a fault in the document. The names that come back are those that were saved,
with spaces in the place of other white space; they are the same just if there is none. A file that the
definitions have been saved to gives the same result as their document. -/
theorem saved_definitions_readable (m : NameMap Definition) :
    ((∃ m', readDefinitions (writeDefinitions m) = .ok m') ↔ ∀ d ∈ m.values, DefinitionAllowed d) ∧
    (∀ e, readDefinitions (writeDefinitions m) = .error e → ∃ row message, e = .document row message) ∧
    (∀ m', readDefinitions (writeDefinitions m) = .ok m' →
      (∀ n, n ∈ m'.names ↔ ∃ d ∈ m.values, rereadValue d.name = n) ∧
      ((∀ n, n ∈ m'.names ↔ ∃ d ∈ m.values, d.name = n) ↔
        ∀ d ∈ m.values, ∀ a ∈ d.name.toList, isSpace a = true → a = ' ')) ∧
    ∀ path t t', (Storage.saveDefinitions path m).run t = (t', .ok ()) →
      (Storage.loadDefinitions path).run t' = (t', readDefinitions (writeDefinitions m)) ∧
      ∀ (s : TransformSet) (r : Registry),
        (Storage.loadSet path s r).run t' = (t', s.loadDocument r (writeDefinitions m)) :=
  ⟨readable_iff m, fun _ => readDefinitions_error, fun _ h => ⟨names_reread h, same_names_iff h⟩,
    fun _ _ _ h => Storage.load_of_saveDefinitions h⟩

theorem saveDefinitions_empty (m : NameMap Definition) :
    (Storage.saveDefinitions "f.xml" m).run ⟨[], []⟩ =
      (⟨[(["f.xml"], (writeDefinitions m).toUTF8)], []⟩, .ok ()) := by
  have hlocate : FileTree.locate ⟨[], []⟩ "f.xml" = .ok ["f.xml"] := by
    simp [FileTree.locate, pathParts, partsBehind, FileTree.walk, FileTree.entry?]
  simp [Storage.saveDefinitions, Storage.writeFile, Dialogue.writeText, bind, Dialogue.andThen,
    Dialogue.run, FileTree.write, hlocate, FileTree.entry?, Dialogue.answered, pure]

/-- A control character is written as it is, and the file cannot be read any more. -/
theorem saved_definitions_unreadable :
    ∃ (m : NameMap Definition) (t' : FileTree) (row : Nat) (message : String),
      m.values = [⟨"f", "x", "", "value // \x01"⟩] ∧
      (Storage.saveDefinitions "f.xml" m).run ⟨[], []⟩ = (t', .ok ()) ∧
      (Storage.loadDefinitions "f.xml").run t' = (t', .error (.document row message)) := by
  let m : NameMap Definition := NameMap.empty.insert "f" ⟨"f", "x", "", "value // \x01"⟩
  have hload := (Storage.load_of_saveDefinitions (saveDefinitions_empty m)).1
  cases hread : readDefinitions (writeDefinitions m) with
  | ok m' =>
    have hallowed := ((readable_iff m).mp ⟨m', hread⟩ _ List.mem_cons_self).expression
    exact absurd (hallowed '\x01' (by simp)) (by simp [isAllowed])
  | error e =>
    obtain ⟨row, message, rfl⟩ := readDefinitions_error hread
    rw [hread] at hload
    exact ⟨m, _, row, message, rfl, saveDefinitions_empty m, hload⟩

/-- Definitions with markup and a line end can be saved and loaded again. -/
theorem saved_definitions_readable_markup :
    ∃ (m m' : NameMap Definition) (t' : FileTree),
      m.values = [⟨" a < b ", "x", "", "value &\n\"&amp;\""⟩] ∧
      (Storage.saveDefinitions "f.xml" m).run ⟨[], []⟩ = (t', .ok ()) ∧
      (Storage.loadDefinitions "f.xml").run t' = (t', .ok m') ∧
      ∀ n, n ∈ m'.names ↔ ∃ d ∈ m.values, d.name = n := by
  let m : NameMap Definition :=
    NameMap.empty.insert " a < b " ⟨" a < b ", "x", "", "value &\n\"&amp;\""⟩
  obtain ⟨hreadable, -, hnames, hfiles⟩ := saved_definitions_readable m
  obtain ⟨m', hread⟩ := hreadable.mpr (by
    simp only [m, NameMap.insert, NameMap.place, NameMap.empty, NameMap.values, List.map_cons,
      List.map_nil, List.forall_mem_singleton]
    constructor <;> simp [Allowed, isAllowed])
  have hload := (hfiles "f.xml" _ _ (saveDefinitions_empty m)).1
  rw [hread] at hload
  refine ⟨m, m', _, rfl, saveDefinitions_empty m, hload, (hnames m' hread).2.mpr ?_⟩
  simp [m, NameMap.insert, NameMap.place, NameMap.empty, NameMap.values, isSpace]

end Document

end DerivedSignal
