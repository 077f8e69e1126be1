import DerivedSignal.Proofs.EscapedText

namespace DerivedSignal

namespace Xml

/-- The result of the first of two readings. -/
theorem of_bind_eq_ok {α β : Type} {x : Except Fault α} {f : α → Except Fault β} {b : β}
    (h : x >>= f = .ok b) : ∃ a, x = .ok a ∧ f a = .ok b := by
  cases x with
  | error e => cases h
  | ok a => exact ⟨a, rfl, h⟩

theorem of_map_eq_ok {α β : Type} {x : Except Fault α} {f : α → β} {b : β}
    (h : x.map f = .ok b) : ∃ a, x = .ok a ∧ f a = b := by
  cases x with
  | error e => cases h
  | ok a =>
    cases h
    exact ⟨a, rfl, rfl⟩

theorem Cursor.allowed_of_scan {stop : List Char → Bool} {s taken : List Char} {p : Position}
    {c : Cursor} (h : scan stop s p = .ok (taken, c)) : ∀ a ∈ taken, isAllowed a = true := by
  induction s generalizing p taken c with
  | nil =>
    cases h
    simp
  | cons b s ih =>
    unfold scan at h
    split at h
    next => cases h
    next hb =>
      split at h
      next =>
        cases h
        simp
      next =>
        split at h
        next => cases h
        next taken' c' hrest =>
          cases h
          intro a ha
          rcases List.mem_cons.mp ha with rfl | ha
          · simpa using hb
          · exact ih hrest a ha

namespace Reference

theorem allowed_of_named {name : String} {c : Char} (h : named name = .char c) :
    isAllowed c = true := by
  unfold named at h
  split at h <;> cases h <;> rfl

theorem allowed_of_ofNumber? {n : Nat} {c : Char} (h : ofNumber? n = some (.char c)) :
    isAllowed c = true := by
  simp only [ofNumber?, Option.ite_none_right_eq_some, Option.some.injEq, Reference.char.injEq] at h
  obtain ⟨ha, rfl⟩ := h
  exact ha

theorem subset_of_numeric? {s rest : List Char} {n : Nat} (h : numeric? s = some (n, rest)) :
    rest ⊆ s := by
  unfold numeric? at h
  split at h
  next s =>
    obtain ⟨_, _, he⟩ := Option.map_eq_some_iff.mp h
    cases he
    exact List.subset_cons_of_subset _ (List.dropWhile_sublist _).subset
  next =>
    obtain ⟨_, _, he⟩ := Option.map_eq_some_iff.mp h
    cases he
    exact (List.dropWhile_sublist _).subset

theorem of_content? {s rest : List Char} {r : Reference} (h : content? s = some (r, rest)) :
    rest ⊆ s ∧ ∀ c, r = .char c → isAllowed c = true := by
  unfold content? at h
  split at h
  next s =>
    split at h
    next n rest' hn =>
      obtain ⟨r', hr, he⟩ := Option.map_eq_some_iff.mp h
      cases he
      refine ⟨List.subset_cons_of_subset _ (subset_of_numeric? hn), ?_⟩
      rintro c rfl
      exact allowed_of_ofNumber? hr
    next => cases h
  next a tail _ =>
    split at h
    next =>
      cases h
      exact ⟨List.subset_cons_of_subset _ (List.dropWhile_sublist _).subset,
        fun c hc => allowed_of_named hc⟩
    next => cases h
  next => cases h

theorem of_read? {s rest : List Char} {r : Reference} (h : read? s = some (r, rest)) :
    rest ⊆ s ∧ ∀ c, r = .char c → isAllowed c = true := by
  unfold read? at h
  split at h
  next r' tail hc =>
    cases h
    obtain ⟨hsubset, hr⟩ := of_content? hc
    exact ⟨fun a ha => hsubset (List.mem_cons_of_mem _ ha), hr⟩
  next => cases h

end Reference

/-- The character of a piece. -/
def Piece.char : Piece → Char
  | plain c => c
  | referenced c => c

theorem allowed_of_pieces {raw : List Char} {p : Position} {ps : List Piece}
    (hraw : ∀ a ∈ raw, isAllowed a = true) (h : pieces raw p = .ok ps) :
    ∀ piece ∈ ps, isAllowed piece.char = true := by
  fun_induction pieces raw p generalizing ps with
  | case1 =>
    cases h
    simp
  | case2 => cases h
  | case3 => cases h
  | case4 => cases h
  | case5 p rest c rest' hread ps' hps ih =>
    cases h
    obtain ⟨hsubset, hc⟩ := Reference.of_read? hread
    have hrest := ih (fun a ha => hraw a (List.mem_cons_of_mem _ (hsubset ha))) hps
    simpa using ⟨hc c rfl, hrest⟩
  | case6 => cases h
  | case7 p c rest hne ps' hps ih =>
    cases h
    have hrest := ih (fun a ha => hraw a (List.mem_cons_of_mem _ ha)) hps
    simpa using ⟨hraw c List.mem_cons_self, hrest⟩

/-- The only characters that an attribute's value has of its own are spaces. -/
theorem mem_attributeValue {ps : List Piece} {c : Char} (h : c ∈ attributeValue ps) :
    c = ' ' ∨ ∃ piece ∈ ps, piece = .referenced c ∨ (piece = .plain c ∧ isSpace c = false) := by
  fun_induction attributeValue ps with
  | case1 => cases h
  | case2 rest ih =>
    rcases List.mem_cons.mp h with rfl | h
    · exact .inl rfl
    · refine (ih h).imp_right fun hm => ?_
      exact List.exists_mem_cons_of_exists (List.exists_mem_cons_of_exists hm)
  | case3 b rest _ ih =>
    rcases List.mem_cons.mp h with rfl | h
    · cases hs : isSpace b <;> simp [hs]
    · exact (ih h).imp_right List.exists_mem_cons_of_exists
  | case4 b rest ih =>
    rcases List.mem_cons.mp h with rfl | h
    · simp
    · exact (ih h).imp_right List.exists_mem_cons_of_exists

/-- The only characters that a text has of its own are line ends. -/
theorem mem_uniformLines {held verbatim : Bool} {ps : List Piece} {c : Char}
    (h : c ∈ uniformLines held verbatim ps) :
    c = '\n' ∨ c = '\x0d' ∨ ∃ piece ∈ ps, piece.char = c := by
  induction ps generalizing held verbatim with
  | nil =>
    unfold uniformLines at h
    split at h <;> simp at h
    exact .inr (.inl h)
  | cons piece ps ih =>
    have hrest : ∀ {held verbatim : Bool}, c ∈ uniformLines held verbatim ps →
        c = '\n' ∨ c = '\x0d' ∨ ∃ p ∈ piece :: ps, p.char = c := fun hm =>
      (ih hm).imp_right (·.imp_right List.exists_mem_cons_of_exists)
    have hown : ∀ {b : Char} {verbatim : Bool}, piece.char = b →
        c ∈ b :: uniformLines false verbatim ps →
        c = '\n' ∨ c = '\x0d' ∨ ∃ p ∈ piece :: ps, p.char = c := fun hb hm => by
      rcases List.mem_cons.mp hm with rfl | hm
      · exact .inr (.inr ⟨piece, List.mem_cons_self, hb⟩)
      · exact hrest hm
    have hreturn : c ∈ (if held then ['\x0d'] else []) → c = '\x0d' := fun hm => by
      split at hm
      next => exact List.mem_singleton.mp hm
      next => cases hm
    cases piece with
    | referenced b =>
      rw [uniformLines, List.mem_append] at h
      rcases h with h | h
      · exact .inr (.inl (hreturn h))
      · split at h
        next => exact hrest h
        next => exact hown rfl h
    | plain b =>
      rw [uniformLines] at h
      split at h
      next =>
        rcases List.mem_append.mp h with h | h
        · exact .inr (.inl (hreturn h))
        · split at h
          next => exact hrest h
          next => exact hown rfl h
      next =>
        rcases List.mem_append.mp h with h | h
        · refine .inl ?_
          split at h
          next => exact List.mem_singleton.mp h
          next => cases h
        · split at h
          next =>
            split at h
            next => exact .inl (by simpa using h)
            next => exact hrest h
          next =>
            split at h
            next => exact hrest h
            next => exact hown rfl h

theorem allowed_of_readValue {raw : List Char} {p : Position} {s : String}
    (hraw : ∀ a ∈ raw, isAllowed a = true) (h : readValue raw p = .ok s) : Allowed s := by
  obtain ⟨ps, hp, rfl⟩ := of_map_eq_ok h
  intro a ha
  rw [String.toList_ofList] at ha
  rcases mem_attributeValue ha with rfl | ⟨piece, hm, hc⟩
  · rfl
  · have hallowed := allowed_of_pieces hraw hp piece hm
    rcases hc with rfl | ⟨rfl, -⟩ <;> exact hallowed

theorem allowed_of_uniformLines {ps : List Piece} (h : ∀ piece ∈ ps, isAllowed piece.char = true) :
    Allowed (String.ofList (uniformLines false false ps)) := by
  intro a ha
  rw [String.toList_ofList] at ha
  rcases mem_uniformLines ha with rfl | rfl | ⟨piece, hm, rfl⟩
  · rfl
  · rfl
  · exact h piece hm

theorem allowed_of_readText {raw : List Char} {p : Position} {s : String}
    (hraw : ∀ a ∈ raw, isAllowed a = true) (h : readText raw p = .ok s) : Allowed s := by
  obtain ⟨ps, hp, rfl⟩ := of_map_eq_ok h
  exact allowed_of_uniformLines (allowed_of_pieces hraw hp)

theorem allowed_readSection {raw : List Char} (hraw : ∀ a ∈ raw, isAllowed a = true) :
    Allowed (readSection raw) := by
  refine allowed_of_uniformLines fun piece hm => ?_
  obtain ⟨a, ha, rfl⟩ := List.mem_map.mp hm
  exact hraw a ha

/-- The texts inside a node and the values of its attributes may stand in a document. -/
inductive Node.Clean : Node → Prop
  | text {content : String} : Allowed content → Clean (.text content)
  | element {name : String} {attributes : List Attribute} {row : Nat} {children : List Node} :
      (∀ a ∈ attributes, Allowed a.value) → (∀ n ∈ children, Clean n) →
      Clean (.element name attributes row children)

/-- The same of an element whose content is being read. -/
structure Frame.Clean (f : Frame) : Prop where
  attributes : ∀ a ∈ f.attributes, Allowed a.value
  children : ∀ n ∈ f.children, n.Clean

namespace Frame.Clean

variable {f : Frame}

theorem toNode (h : f.Clean) : f.toNode.Clean :=
  .element h.attributes fun n hn => h.children n (List.mem_reverse.mp hn)

theorem push (h : f.Clean) {n : Node} (hn : n.Clean) : (f.push n).Clean := by
  refine ⟨h.attributes, fun m hm => ?_⟩
  rcases List.mem_cons.mp hm with rfl | hm
  · exact hn
  · exact h.children m hm

end Frame.Clean

namespace Header

theorem allowed_of_add {h h' : Header} {name : Name} {value : String} {p : Position}
    (hadd : h.add name value p = .ok h') (hh : ∀ a ∈ h.attributes, Allowed a.value)
    (hv : Allowed value) : ∀ a ∈ h'.attributes, Allowed a.value := by
  unfold add at hadd
  split at hadd
  next =>
    split at hadd
    next => cases hadd
    split at hadd
    next => cases hadd
    split at hadd
    next => cases hadd
    split at hadd
    next => cases hadd
    cases hadd
    split
    next => exact hh
    next => exact hh
  next =>
    split at hadd
    next =>
      split at hadd
      next => cases hadd
      split at hadd
      next => cases hadd
      cases hadd
      exact hh
    next =>
      cases hadd
      intro a ha
      rcases List.mem_cons.mp ha with rfl | ha
      · exact hv
      · exact hh a ha

theorem allowed_of_resolve {scope : Scope} {seen attributes : List Attribute}
    {raws : List RawAttribute} (h : resolve scope seen raws = .ok attributes)
    (hseen : ∀ a ∈ seen, Allowed a.value) (hraws : ∀ a ∈ raws, Allowed a.value) :
    ∀ a ∈ attributes, Allowed a.value := by
  induction raws generalizing seen with
  | nil =>
    cases h
    exact fun a ha => hseen a (List.mem_reverse.mp ha)
  | cons raw raws ih =>
    unfold resolve at h
    split at h
    next => cases h
    next space hspace =>
      split at h
      next => cases h
      next =>
        refine ih h (fun a ha => ?_) fun a ha => hraws a (List.mem_cons_of_mem _ ha)
        rcases List.mem_cons.mp ha with rfl | ha
        · exact hraws raw List.mem_cons_self
        · exact hseen a ha

end Header

namespace Reader

theorem allowed_of_assignment {c after : Cursor} {n : Name} {raw : List Char} {p : Position}
    (h : assignment c = .ok (n, raw, p, after)) : ∀ a ∈ raw, isAllowed a = true := by
  unfold assignment at h
  obtain ⟨⟨n', c₁⟩, -, h⟩ := of_bind_eq_ok h
  obtain ⟨c₂, -, h⟩ := of_bind_eq_ok h
  obtain ⟨⟨mark, c₃⟩, -, h⟩ := of_bind_eq_ok h
  obtain ⟨⟨raw', c₄⟩, hscan, h⟩ := of_bind_eq_ok h
  obtain ⟨c₅, -, h⟩ := of_bind_eq_ok h
  cases h
  exact Cursor.allowed_of_scan hscan

theorem allowed_of_literalSection {c c' : Cursor} {s : String}
    (h : literalSection c = .ok (s, c')) : Allowed s := by
  unfold literalSection at h
  obtain ⟨⟨raw, c₁⟩, hscan, h⟩ := of_bind_eq_ok h
  obtain ⟨c₂, -, h⟩ := of_bind_eq_ok h
  cases h
  exact allowed_readSection (Cursor.allowed_of_scan hscan)

theorem allowed_of_plainText {c c' : Cursor} {s : String} (h : plainText c = .ok (s, c')) :
    Allowed s := by
  unfold plainText at h
  obtain ⟨⟨raw, c₁⟩, hscan, h⟩ := of_bind_eq_ok h
  simp only at h
  split at h
  next => cases h
  next =>
    obtain ⟨content, hcontent, h⟩ := of_bind_eq_ok h
    cases h
    exact allowed_of_readText (Cursor.allowed_of_scan hscan) hcontent

theorem allowed_of_header {fuel : Nat} {h h' : Header} {c c' : Cursor} {ending : TagEnd}
    (hrun : header fuel h c = .ok (h', ending, c')) (hh : ∀ a ∈ h.attributes, Allowed a.value) :
    ∀ a ∈ h'.attributes, Allowed a.value := by
  induction fuel generalizing h c with
  | zero =>
    cases hrun
    exact hh
  | succ fuel ih =>
    unfold header at hrun
    split at hrun
    next =>
      cases hrun
      exact hh
    next =>
      simp only at hrun
      split at hrun
      next => cases hrun
      next =>
        obtain ⟨c₁, -, he⟩ := of_map_eq_ok hrun
        cases he
        exact hh
      next =>
        cases hrun
        exact hh
      next =>
        split at hrun
        next => cases hrun
        next =>
          obtain ⟨⟨n, raw, place, after⟩, hread, hrun⟩ := of_bind_eq_ok hrun
          obtain ⟨value, hvalue, hrun⟩ := of_bind_eq_ok hrun
          obtain ⟨h₁, hadd, hrun⟩ := of_bind_eq_ok hrun
          have hv := allowed_of_readValue (allowed_of_assignment hread) hvalue
          exact ih hrun (Header.allowed_of_add hadd hh hv)

theorem clean_of_startTag {outer : Scope} {c c' : Cursor} {f : Frame} {ending : TagEnd}
    (h : startTag outer c = .ok (f, ending, c')) : f.Clean := by
  unfold startTag at h
  obtain ⟨⟨n, c₁⟩, -, h⟩ := of_bind_eq_ok h
  simp only at h
  split at h
  next => cases h
  next =>
    obtain ⟨⟨header, ending', c₂⟩, hheader, h⟩ := of_bind_eq_ok h
    simp only at h
    split at h
    next =>
      cases h
      exact ⟨by simp, by simp⟩
    next =>
      obtain ⟨attributes, hresolve, h⟩ := of_bind_eq_ok h
      split at h
      next => cases h
      next =>
        cases h
        have hraws := allowed_of_header hheader (by simp)
        refine ⟨Header.allowed_of_resolve hresolve (by simp) fun a ha => ?_, by simp⟩
        exact hraws a (List.mem_reverse.mp ha)

theorem clean_of_content {fuel : Nat} {frame : Frame} {outer : List Frame} {c c' : Cursor}
    {node : Node} (h : content fuel frame outer c = .ok (node, c')) (hf : frame.Clean)
    (ho : ∀ f ∈ outer, f.Clean) : node.Clean := by
  -- Every item that is read leaves the innermost element and those around it clean.
  induction fuel generalizing frame outer c with
  | zero => cases h
  | succ fuel ih =>
    unfold content at h
    split at h
    next => cases h
    next => cases h
    next =>
      split at h
      next =>
        obtain ⟨c₁, -, h⟩ := of_bind_eq_ok h
        exact ih h hf ho
      next =>
        split at h
        next =>
          obtain ⟨⟨s, c₁⟩, hs, h⟩ := of_bind_eq_ok h
          exact ih h (hf.push (.text (allowed_of_literalSection hs))) ho
        next => cases h
    next =>
      obtain ⟨c₁, -, h⟩ := of_bind_eq_ok h
      exact ih h hf ho
    next =>
      obtain ⟨⟨n, c₁⟩, -, h⟩ := of_bind_eq_ok h
      simp only at h
      split at h
      next => cases h
      next =>
        split at h
        next =>
          cases h
          exact hf.toNode
        next parent outer =>
          obtain ⟨hparent, houter⟩ := List.forall_mem_cons.mp ho
          exact ih h (hparent.push hf.toNode) houter
    next =>
      obtain ⟨⟨inner, ending, c₁⟩, hs, h⟩ := of_bind_eq_ok h
      have hinner := clean_of_startTag hs
      cases ending with
      | cut => cases h
      | closed => exact ih h (hf.push hinner.toNode) ho
      | opening => exact ih h hinner (List.forall_mem_cons.mpr ⟨hf, ho⟩)
    next =>
      obtain ⟨⟨s, c₁⟩, hs, h⟩ := of_bind_eq_ok h
      exact ih h (hf.push (.text (allowed_of_plainText hs))) ho

theorem clean_of_root {c c' : Cursor} {node : Node} (h : root c = .ok (node, c')) : node.Clean := by
  unfold root at h
  split at h
  next =>
    obtain ⟨⟨frame, ending, c₁⟩, hs, h⟩ := of_bind_eq_ok h
    have hframe := clean_of_startTag hs
    cases ending with
    | cut => cases h
    | closed =>
      cases h
      exact hframe.toNode
    | opening => exact clean_of_content h hframe (by simp)
  next => cases h
  next => cases h

end Reader

/-- Whatever is read, nothing in it is forbidden. -/
theorem clean_of_parse {s : String} {node : Node} (h : parse s = .ok node) : node.Clean := by
  unfold parse at h
  simp only at h
  -- With and without a declaration, the reading goes on alike.
  split at h
  all_goals
    obtain ⟨c₁, -, h⟩ := of_bind_eq_ok h
    obtain ⟨c₂, -, h⟩ := of_bind_eq_ok h
    split at h
    next => cases h
    next =>
      obtain ⟨⟨root, c₃⟩, hroot, h⟩ := of_bind_eq_ok h
      obtain ⟨c₄, -, h⟩ := of_bind_eq_ok h
      split at h
      next =>
        cases h
        exact Reader.clean_of_root hroot
      next => cases h

theorem allowed_append {s t : String} (hs : Allowed s) (ht : Allowed t) : Allowed (s ++ t) := by
  intro a ha
  rw [String.toList_append] at ha
  rcases List.mem_append.mp ha with ha | ha
  · exact hs a ha
  · exact ht a ha

namespace Node.Clean

variable {n : Node}

theorem allText (h : n.Clean) : Allowed n.allText := by
  induction h with
  | text h => exact h
  | @element name attributes row children _ _ ih =>
    rw [Node.allText]
    clear * - ih
    induction children with
    | nil => simp [allTexts, Allowed]
    | cons child children ihs =>
      obtain ⟨hchild, hchildren⟩ := List.forall_mem_cons.mp ih
      exact allowed_append hchild (ihs hchildren)

theorem elements (h : n.Clean) (name : String) : ∀ child ∈ n.elements name, child.Clean := by
  intro child hc
  cases h with
  | text => simp [Node.elements, Node.children] at hc
  | element _ hchildren => exact hchildren child (List.mem_filter.mp hc).1

theorem attribute? (h : n.Clean) {name value : String} (hv : n.attribute? name = some value) :
    Allowed value := by
  cases h with
  | text => cases hv
  | element hattributes _ =>
    obtain ⟨a, ha, rfl⟩ := Option.map_eq_some_iff.mp hv
    exact hattributes a (List.mem_of_find?_eq_some ha)

end Node.Clean

end Xml

end DerivedSignal
