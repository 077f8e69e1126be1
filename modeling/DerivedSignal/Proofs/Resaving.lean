import DerivedSignal.Proofs.AllowedCharacters
import DerivedSignal.Proofs.DocumentRoundTrip

namespace DerivedSignal

open Xml

namespace Text

theorem toList_trim (s : String) :
    (trim s).toList = (s.toList.dropWhile isBlank).rdropWhile isBlank := by
  rw [trim, String.toList_ofList, List.rdropWhile]

theorem trim_infix (s : String) : (trim s).toList <:+: s.toList := by
  rw [toList_trim]
  exact (List.rdropWhile_prefix isBlank _).isInfix.trans (List.dropWhile_suffix isBlank).isInfix

theorem getLast?_trim {s : String} {a : Char} (h : (trim s).toList.getLast? = some a) :
    isBlank a = false := by
  rw [toList_trim] at h
  obtain ⟨hne, rfl⟩ := List.mem_getLast?_eq_getLast h
  simpa using List.rdropWhile_last_not isBlank _ hne

theorem trim_trim (s : String) : trim (trim s) = trim s := by
  let front := s.toList.dropWhile isBlank
  have hfront : (front.rdropWhile isBlank).dropWhile isBlank = front.rdropWhile isBlank := by
    refine List.dropWhile_eq_self_iff.mpr fun hpos => ?_
    rw [(List.rdropWhile_prefix isBlank front).getElem hpos]
    exact List.dropWhile_eq_self_iff.mp (List.dropWhile_idempotent isBlank s.toList) _
  refine String.toList_injective ?_
  rw [toList_trim, toList_trim, hfront, List.rdropWhile_idempotent]

end Text

namespace NameMap

variable {α : Type}

theorem mem_entries_insert {m : NameMap α} {name : String} {value : α} {e : String × α}
    (h : e ∈ (m.insert name value).entries) : e = (name, value) ∨ e ∈ m.entries :=
  mem_place h

theorem mem_entries_ofList {entries : List (String × α)} {e : String × α}
    (h : e ∈ (ofList entries).entries) : e ∈ entries := by
  have hfold : ∀ (l : List (String × α)) (m : NameMap α),
      e ∈ (l.foldl (fun m e => m.insert e.1 e.2) m).entries → e ∈ l ∨ e ∈ m.entries := by
    intro l
    induction l with
    | nil => exact fun m he => .inr he
    | cons d l ih =>
      intro m he
      rcases ih _ he with he | he
      · exact .inl (List.mem_cons_of_mem d he)
      · rcases mem_entries_insert he with rfl | he
        · exact .inl List.mem_cons_self
        · exact .inr he
  exact (hfold entries empty h).resolve_right (by simp [empty])

theorem eq_of_mapValues_eq_self {f : α → α} {m : NameMap α} (h : m.mapValues f = m) :
    ∀ a ∈ m.values, f a = a := by
  have hentries : m.entries.map (fun e => (e.1, f e.2)) = m.entries.map id := by
    rw [List.map_id]
    exact congrArg NameMap.entries h
  intro a ha
  obtain ⟨e, he, rfl⟩ := List.mem_map.mp ha
  exact congrArg Prod.snd (List.map_inj_left.mp hentries e he)

end NameMap

namespace Xml

theorem isSpace_of_isMarkup {c : Char} (h : isMarkup c = true) : isSpace c = false := by
  simp only [isMarkup, Bool.or_eq_true, decide_eq_true_eq] at h
  rcases h with (((rfl | rfl) | rfl) | rfl) | rfl <;> rfl

theorem spaces_of_spaced {cs : List Char} {c : Char} (h : c ∈ spaced cs) (hs : isSpace c = true) :
    c = ' ' := by
  rcases mem_attributeValue h with rfl | ⟨piece, hp, hc⟩
  · rfl
  · obtain ⟨b, -, rfl⟩ := List.mem_map.mp hp
    have hnone : isSpace c = false := by
      rcases hc with hc | ⟨-, hc⟩
      · unfold pieceOf at hc
        split at hc
        next hm =>
          cases hc
          exact isSpace_of_isMarkup hm
        next => cases hc
      · exact hc
    rw [hnone] at hs
    cases hs

/-- A name comes back as it was if it has no white space but spaces. -/
theorem rereadValue_eq_self {s : String} :
    rereadValue s = s ↔ ∀ a ∈ s.toList, isSpace a = true → a = ' ' := by
  constructor
  · intro h a ha hs
    rw [← h, rereadValue, String.toList_ofList] at ha
    exact spaces_of_spaced ha hs
  · intro h
    rw [rereadValue, spaced_of_spaces h, String.ofList_toList]

theorem rereadValue_rereadValue (s : String) : rereadValue (rereadValue s) = rereadValue s := by
  refine rereadValue_eq_self.mpr fun a ha hs => ?_
  rw [rereadValue, String.toList_ofList] at ha
  exact spaces_of_spaced ha hs

theorem returnsHeld_trim_rereadText (s : String) :
    ReturnsHeld (Text.trim (rereadText s)).toList := by
  have hlined : ReturnsHeld (rereadText s).toList := by
    rw [rereadText, String.toList_ofList]
    exact returnsHeld_uniformLines s.toList (by simp)
  exact hlined.infix (Text.trim_infix _)

/-- A trimmed text comes back as it was if nothing but references follows its carriage returns. -/
theorem trim_rereadText_eq_self {s : String} (h : Text.trim s = s) :
    Text.trim (rereadText s) = s ↔ ReturnsHeld s.toList := by
  constructor
  · intro hs
    rw [← hs]
    exact returnsHeld_trim_rereadText s
  · intro hs
    have hend : s.toList.getLast? ≠ some '\r' := fun hlast => by
      rw [← h] at hlast
      have hblank := Text.getLast?_trim hlast
      cases hblank
    rw [rereadText, lined_of_returnsHeld hs hend, String.ofList_toList, h]

end Xml

namespace Document

theorem allowed_trim {s : String} (h : Allowed s) : Allowed (Text.trim s) := fun a ha =>
  h a ((Text.trim_infix s).subset ha)

theorem allowed_childText {entry : Node} (h : entry.Clean) (tag : String) :
    Allowed (childText entry tag) := by
  unfold childText
  split
  next child rest hc =>
    exact allowed_trim (h.elements tag child (hc ▸ List.mem_cons_self)).allText
  next => simp [Allowed]

theorem trim_childText (entry : Node) (tag : String) :
    Text.trim (childText entry tag) = childText entry tag := by
  unfold childText
  split
  next => exact Text.trim_trim _
  next => rfl

/-- What reading and writing keep of a definition: its name, and texts without blanks at their ends that may
stand in a document. -/
structure Loaded (name : String) (d : Definition) : Prop where
  name : d.name = name
  allowed : DefinitionAllowed d
  trimmed : d.trimmed = d

theorem loaded_definitionOf {entry : Node} (h : entry.Clean) {name : String}
    (hn : entryName entry = .ok name) : Loaded name (definitionOf entry name) := by
  refine ⟨rfl, ⟨?_, allowed_childText h _, allowed_childText h _, allowed_childText h _⟩, ?_⟩
  · unfold entryName at hn
    split at hn
    next hv =>
      cases hn
      exact h.attribute? hv
    next => cases hn
  · simp only [Definition.trimmed, definitionOf, trim_childText]

theorem of_readEntries {α : Type} {read : Node → String → α} {P : String → α → Prop} {ns : List Node}
    {m m' : NameMap α} (h : readEntries read ns m = .ok m')
    (hread : ∀ n ∈ ns, ∀ name, entryName n = .ok name → P name (read n name))
    (hm : ∀ e ∈ m.entries, P e.1 e.2) : ∀ e ∈ m'.entries, P e.1 e.2 := by
  induction ns generalizing m with
  | nil =>
    cases h
    exact hm
  | cons n ns ih =>
    unfold readEntries at h
    split at h
    next => cases h
    next name hn =>
      refine ih h (fun k hk => hread k (List.mem_cons_of_mem n hk)) fun e he => ?_
      rcases NameMap.mem_entries_insert he with rfl | he
      · exact hread n List.mem_cons_self name hn
      · exact hm e he

theorem loaded_of_readDefinitions {text : String} {m : NameMap Definition}
    (h : readDefinitions text = .ok m) : ∀ e ∈ m.entries, Loaded e.1 e.2 := by
  unfold readDefinitions at h
  split at h
  next => cases h
  next =>
    cases h
    simp [NameMap.empty]
  next root hroot =>
    simp only at h
    split at h
    next =>
      have hclean : root.Clean := by
        unfold root? at hroot
        split at hroot
        next => cases hroot
        next =>
          split at hroot
          next hparse =>
            cases hroot
            exact clean_of_parse hparse
          next => cases hroot
      refine of_readEntries h (fun n hn name hname => ?_) (by simp [NameMap.empty])
      exact loaded_definitionOf (hclean.elements entryTag n hn) hname
    next => cases h

/-- A definition that comes back as it was: no white space but spaces in its name, and behind a carriage
return in its texts only what is written as a reference. -/
structure DefinitionSettled (d : Definition) : Prop where
  name : ∀ a ∈ d.name.toList, isSpace a = true → a = ' '
  linked : ReturnsHeld d.linked.toList
  globals : ReturnsHeld d.globals.toList
  expression : ReturnsHeld d.expression.toList

theorem reread_eq_self {d : Definition} (h : d.trimmed = d) : d.reread = d ↔ DefinitionSettled d := by
  obtain ⟨name, linked, globals, expression⟩ := d
  simp only [Definition.trimmed, Definition.mk.injEq, true_and] at h
  obtain ⟨hlinked, hglobals, hexpression⟩ := h
  simp only [Definition.reread, Definition.mk.injEq, rereadValue_eq_self,
    trim_rereadText_eq_self hlinked, trim_rereadText_eq_self hglobals,
    trim_rereadText_eq_self hexpression]
  constructor
  · rintro ⟨hname, hlinked, hglobals, hexpression⟩
    exact ⟨hname, hlinked, hglobals, hexpression⟩
  · rintro ⟨hname, hlinked, hglobals, hexpression⟩
    exact ⟨hname, hlinked, hglobals, hexpression⟩

theorem settled_reread (d : Definition) : DefinitionSettled d.reread :=
  ⟨rereadValue_eq_self.mp (rereadValue_rereadValue d.name), returnsHeld_trim_rereadText d.linked,
    returnsHeld_trim_rereadText d.globals, returnsHeld_trim_rereadText d.expression⟩

theorem ofList_reread_eq_self {m : NameMap Definition} (keyed : ∀ e ∈ m.entries, e.2.name = e.1) :
    NameMap.ofList (m.values.map fun d => (rereadValue d.name, d.reread)) = m ↔
      ∀ d ∈ m.values, d.reread = d := by
  constructor
  · intro h
    have hnames : ∀ d ∈ m.values, rereadValue d.name = d.name ∧ d.reread = d.reread := by
      intro d hd
      obtain ⟨e, he, rfl⟩ := List.mem_map.mp hd
      rw [← h] at he
      obtain ⟨d', -, hd'⟩ := List.mem_map.mp (NameMap.mem_entries_ofList he)
      rw [← hd']
      exact ⟨rereadValue_rereadValue d'.name, rfl⟩
    refine NameMap.eq_of_mapValues_eq_self ?_
    rw [← ofList_reread keyed hnames, h]
  · intro h
    rw [ofList_reread keyed fun d hd => ⟨congrArg Definition.name (h d hd), h d hd⟩]
    exact NameMap.mapValues_eq_self fun d hd => rfl

theorem readDefinitions_resaved {text : String} {m : NameMap Definition}
    (h : readDefinitions text = .ok m) :
    readDefinitions (writeDefinitions m) =
      .ok (NameMap.ofList (m.values.map fun d => (rereadValue d.name, d.reread))) := by
  refine readDefinitions_rewritten fun d hd => ?_
  obtain ⟨e, he, rfl⟩ := List.mem_map.mp hd
  exact (loaded_of_readDefinitions h e he).allowed

theorem resaved_eq_self_iff {text : String} {m : NameMap Definition}
    (h : readDefinitions text = .ok m) :
    readDefinitions (writeDefinitions m) = .ok m ↔ ∀ d ∈ m.values, DefinitionSettled d := by
  have hloaded := loaded_of_readDefinitions h
  rw [readDefinitions_resaved h, Except.ok.injEq, ofList_reread_eq_self fun e he => (hloaded e he).name]
  refine forall₂_congr fun d hd => ?_
  obtain ⟨e, he, rfl⟩ := List.mem_map.mp hd
  exact reread_eq_self (hloaded e he).trimmed

theorem settled_of_resaved {text : String} {m m' : NameMap Definition}
    (h : readDefinitions text = .ok m) (h' : readDefinitions (writeDefinitions m) = .ok m') :
    ∀ d ∈ m'.values, DefinitionSettled d := by
  rw [readDefinitions_resaved h, Except.ok.injEq] at h'
  subst h'
  intro d hd
  obtain ⟨e, he, rfl⟩ := List.mem_map.mp hd
  obtain ⟨d', -, rfl⟩ := List.mem_map.mp (NameMap.mem_entries_ofList he)
  exact settled_reread d'

/-- Loaded definitions that are saved come back as they were if their names have no white space but spaces,
and if in their texts only what is written as a reference follows a carriage return; otherwise something
changes, and definitions whose names become the same are merged. Saving what has come back changes nothing
any more. -/
theorem resaved_definitions {text : String} {m : NameMap Definition}
    (h : readDefinitions text = .ok m) :
    readDefinitions (writeDefinitions m) =
      .ok (NameMap.ofList (m.values.map fun d => (rereadValue d.name, d.reread))) ∧
    (readDefinitions (writeDefinitions m) = .ok m ↔ ∀ d ∈ m.values, DefinitionSettled d) ∧
    ∀ m', readDefinitions (writeDefinitions m) = .ok m' →
      readDefinitions (writeDefinitions m') = .ok m' :=
  ⟨readDefinitions_resaved h, resaved_eq_self_iff h, fun _ h' =>
    (resaved_eq_self_iff h').mpr (settled_of_resaved h h')⟩

theorem exists_of_toOption {α β : Type} {x : Except Error α} {f : α → β} {b : β}
    (h : x.toOption.map f = some b) : ∃ a, x = .ok a ∧ f a = b := by
  cases x with
  | error e => cases h
  | ok a => exact ⟨a, rfl, Option.some.inj h⟩

/-- A line end in a name is written as it is and read as a space, so one of two definitions is lost. -/
theorem resaving_merges_definitions :
    ∃ text m m', readDefinitions text = .ok m ∧ m.names = ["a\nb", "a b"] ∧
      readDefinitions (writeDefinitions m) = .ok m' ∧ m'.names = ["a b"] := by
  let text := "<customMathEquations><snippet name=\"a&#10;b\"/>" ++
    "<snippet name=\"a b\"/></customMathEquations>"
  have hread : (readDefinitions text).toOption.map (fun m => (m.names,
      (NameMap.ofList (m.values.map fun d => (rereadValue d.name, d.reread))).names)) =
      some (["a\nb", "a b"], ["a b"]) := by decide +kernel
  obtain ⟨m, hm, hnames⟩ := exists_of_toOption hread
  obtain ⟨hbefore, hafter⟩ := Prod.mk.inj hnames
  exact ⟨text, m, _, hm, hbefore, readDefinitions_resaved hm, hafter⟩

/-- A carriage return in front of a reference is kept. -/
theorem resaved_definitions_return :
    ∃ text m, readDefinitions text = .ok m ∧ m.values = [⟨"a", "", "", "x \r< y"⟩] ∧
      readDefinitions (writeDefinitions m) = .ok m := by
  let text := "<customMathEquations><snippet name=\"a\">" ++
    "<equation>x &#13;&lt; y</equation></snippet></customMathEquations>"
  have hread : (readDefinitions text).toOption.map (·.values) =
      some [⟨"a", "", "", "x \r< y"⟩] := by decide +kernel
  obtain ⟨m, hm, hvalues⟩ := exists_of_toOption hread
  refine ⟨text, m, hm, hvalues, (resaved_definitions hm).2.1.mpr fun d hd => ?_⟩
  rw [hvalues, List.mem_singleton] at hd
  subst hd
  exact ⟨by simp [isSpace], by decide +kernel, by decide +kernel, by decide +kernel⟩

end Document

end DerivedSignal
