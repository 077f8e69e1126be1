import DerivedSignal.Proofs.ContentReading

namespace DerivedSignal

namespace Xml

open Reader

/-- The declaration that every document begins with. -/
def declarationText : String := "<?xml version=\"1.0\" encoding=\"UTF-8\"?>"

theorem declaration_reads (rest : List Char) (p : Position) :
    ∃ q, declaration ⟨declarationText.toList ++ rest, p⟩ = .ok ⟨rest, q⟩ :=
  ⟨_, rfl⟩

theorem toList_intercalate (l : String) (ls : List String) :
    ("\n".intercalate (l :: ls)).toList = l.toList ++ ls.flatMap fun l => '\n' :: l.toList := by
  induction ls generalizing l with
  | nil => simp
  | cons k ls ih =>
    rw [String.intercalate_cons_cons, String.toList_append, String.toList_append, ih]
    simp

theorem startsWith_tag {a b : Char} {s : String} {rest : List Char}
    (hs : s.toList = '<' :: b :: rest) (h : a ≠ b) (tail : List Char) (p : Position) :
    Cursor.startsWith ⟨'<' :: a :: tail, p⟩ s = false := by
  simp [Cursor.startsWith, hs, List.isPrefixOf, Ne.symm h]

theorem surroundings_tag {a : Char} (ha : isNameStart a = true) (fuel : Nat) (tail : List Char)
    (p : Position) :
    surroundings (fuel + 1) ⟨'\n' :: '<' :: a :: tail, p⟩ =
      .ok ⟨'<' :: a :: tail, p.after '\n'⟩ := by
  obtain ⟨-, -, -, hbang, hquestion⟩ := ne_of_isNameStart ha
  have hskip : Cursor.skipSpace ⟨'\n' :: '<' :: a :: tail, p⟩ = ⟨'<' :: a :: tail, p.after '\n'⟩ :=
    rfl
  have hcomment := startsWith_tag (s := "<!--") rfl hbang tail (p.after '\n')
  have hinstruction := startsWith_tag (s := "<?") rfl hquestion tail (p.after '\n')
  simp only [surroundings, hskip, hcomment, hinstruction]
  rfl

theorem root_reads {s inside : List Char} {tag : String} {attributes : List Attribute}
    {added : List Node → Prop} (ho : Opens s tag attributes) (hi : Reads AtTag inside added)
    (p : Position) :
    ∃ row children q, root ⟨s ++ (inside ++ endText tag), p⟩ =
      .ok (.element tag attributes row children, ⟨[], q⟩) ∧ added children := by
  obtain ⟨a, tail, rfl, ha⟩ := ho.start
  obtain ⟨q, hopen⟩ := ho.reads [] (inside ++ endText tag) p
  obtain ⟨ns, q', hns, hsteps⟩ := hi ⟨⟨"", tag⟩, attributes, p.row, [], []⟩ [] (endText tag) q rfl
  obtain ⟨fuel, hfuel, hcontent⟩ := hsteps _ (Nat.lt_succ_self _)
  let inner := Frame.pushAll ⟨⟨"", tag⟩, attributes, p.row, [], []⟩ ns
  have hname : inner.name = ⟨"", tag⟩ := rfl
  have hnode : inner.toNode = .element tag attributes p.row ns := by
    simp [inner, Frame.toNode, Frame.pushAll]
  obtain ⟨n, rfl⟩ : ∃ n, fuel = n + 1 := ⟨fuel - 1, by omega⟩
  obtain ⟨q'', hclosing⟩ := content_closing ho.plain hname n [] q'
  refine ⟨p.row, ns, q'', ?_, hns⟩
  have hend : endText tag = '<' :: '/' :: (tag.toList ++ ['>']) := rfl
  rw [hend, hclosing, hnode] at hcontent
  rw [root, List.cons_append]
  simp only [bind, Except.bind, ← List.cons_append]
  rw [hopen]
  exact hcontent

/-- Between the declaration and the end of the text there is nothing but the root element. -/
theorem parse_of_root {s : String} {a : Char} {tail : List Char} (ha : isNameStart a = true)
    (hs : s.toList = declarationText.toList ++ '\n' :: '<' :: a :: tail) :
    ∃ p, ∀ node q, root ⟨'<' :: a :: tail, p⟩ = .ok (node, ⟨[], q⟩) → parse s = .ok node := by
  obtain ⟨p, hdeclaration⟩ := declaration_reads ('\n' :: '<' :: a :: tail) Position.first
  have hcursor : Cursor.ofText s =
      ⟨declarationText.toList ++ '\n' :: '<' :: a :: tail, Position.first⟩ := by
    rw [Cursor.ofText, hs]
    rfl
  have hstarts : Cursor.startsWith
      ⟨declarationText.toList ++ '\n' :: '<' :: a :: tail, Position.first⟩ "<?xml " = true := rfl
  have hdoctype := startsWith_tag (s := "<!DOCTYPE") rfl (ne_of_isNameStart ha).2.2.2.1 tail
    (p.after '\n')
  have hend : ∀ fuel q, surroundings (fuel + 1) ⟨[], q⟩ = .ok ⟨[], q⟩ := fun _ _ => rfl
  refine ⟨p.after '\n', fun node q hroot => ?_⟩
  simp only [parse, hcursor, hstarts, if_true, hdeclaration, bind, Except.bind,
    surroundings_tag ha, hdoctype, hroot, hend]
  rfl

/-- A document is read as its root element with the elements on the lines inside. -/
theorem parse_document {tag : String} (ht : PlainName tag) {inside : List String}
    {described : List (Node → Prop)}
    (hi : Reads (fun _ => True) (inside.flatMap fun l => '\n' :: l.toList) (Elements described)) :
    ∃ row children, parse (document (block 0 tag [] inside)) =
      .ok (.element tag [] row children) ∧ Elements described children := by
  obtain ⟨a, tail, ha, hstart⟩ := ht.start
  have hinside := reads_append hi (reads_margin 0) fun _ => trivial
  rw [List.append_nil] at hinside
  let body := (inside.flatMap fun l => '\n' :: l.toList) ++ margin 0 ++ endText tag
  have hshape : (document (block 0 tag [] inside)).toList =
      declarationText.toList ++ '\n' :: '<' :: a :: (tail ++ '>' :: body) := by
    rw [document, toList_intercalate]
    simp [block, margin, endText, indentation, declarationText, String.join, ha, body]
  have hroot_shape : '<' :: a :: (tail ++ '>' :: body) = '<' :: (tag.toList ++ ['>']) ++ body := by
    simp [ha]
  obtain ⟨p, hparse⟩ := parse_of_root hstart hshape
  obtain ⟨row, children, q, hroot, hchildren⟩ := root_reads (opens_plain ht) hinside p
  rw [← hroot_shape] at hroot
  exact ⟨row, children, hparse _ q hroot, hchildren⟩

end Xml

end DerivedSignal
