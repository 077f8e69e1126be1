import DerivedSignal.Proofs.AllowedCharacters

namespace DerivedSignal

namespace Xml

/-- A reading that may be left out, and how it goes on. -/
theorem of_optional {α : Type} {b : Bool} {x : Except Fault Cursor} {f : Cursor → Except Fault α}
    {c : Cursor} {a : α} (h : (if b = true then x >>= f else pure c >>= f) = .ok a) :
    ∃ c', (b = true ∧ x = .ok c' ∨ c' = c) ∧ f c' = .ok a := by
  split at h
  next hb =>
    obtain ⟨c', hx, h⟩ := of_bind_eq_ok h
    exact ⟨c', .inl ⟨hb, hx⟩, h⟩
  next => exact ⟨c, .inr rfl, h⟩

theorem isAllowed_of_isSpace {a : Char} (h : isSpace a = true) : isAllowed a = true := by
  simp only [isSpace, Bool.or_eq_true, decide_eq_true_eq] at h
  rcases h with ((rfl | rfl) | rfl) | rfl <;> rfl

theorem isAllowed_of_isNameChar {a : Char} (h : isNameChar a = true) : isAllowed a = true := by
  simp only [isNameChar, isNameStart, inRanges, nameStarts, nameExtras, List.any_cons, List.any_nil,
    Bool.or_false, Bool.or_eq_true, Bool.and_eq_true, decide_eq_true_eq] at h
  unfold isAllowed
  rw [if_neg (by omega)]
  simp only [decide_not, Bool.and_eq_true, Bool.not_eq_true', decide_eq_false_iff_not]
  omega

namespace Cursor

variable {c c' c'' : Cursor}

/-- What lies between two cursors may stand in a document: a character that may not is still ahead. -/
def Passes (c c' : Cursor) : Prop := ∀ a ∈ c.rest, isAllowed a = true ∨ a ∈ c'.rest

/-- The second cursor stands behind some characters that follow the first one and may stand in a document. -/
def Moves (c c' : Cursor) : Prop :=
  ∃ taken, c.rest = taken ++ c'.rest ∧ c'.position = c.position.afterAll taken ∧
    ∀ a ∈ taken, isAllowed a = true

theorem Moves.refl (c : Cursor) : c.Moves c := ⟨[], rfl, rfl, by simp⟩

theorem Moves.trans (h : c.Moves c') (h' : c'.Moves c'') : c.Moves c'' := by
  obtain ⟨taken, hrest, hposition, ht⟩ := h
  obtain ⟨taken', hrest', hposition', ht'⟩ := h'
  refine ⟨taken ++ taken', by rw [hrest, hrest', List.append_assoc], ?_, ?_⟩
  · rw [hposition', hposition, Position.afterAll, Position.afterAll, Position.afterAll, List.foldl_append]
  · exact fun a ha => (List.mem_append.mp ha).elim (ht a) (ht' a)

theorem Moves.passes (h : c.Moves c') : c.Passes c' := by
  obtain ⟨taken, hrest, -, ht⟩ := h
  exact fun a ha => (List.mem_append.mp (hrest ▸ ha)).imp_left (ht a)

theorem moves_span {p : Char → Bool} (hp : ∀ a, p a = true → isAllowed a = true) (c : Cursor) :
    c.Moves (c.span p).2 :=
  ⟨_, List.takeWhile_append_dropWhile.symm, rfl, fun a ha => hp a (List.mem_takeWhile_imp ha)⟩

theorem moves_skipSpace (c : Cursor) : c.Moves c.skipSpace :=
  moves_span (fun _ => isAllowed_of_isSpace) c

theorem moves_next {a : Char} {rest : List Char} (h : c.rest = a :: rest) (ha : isAllowed a = true) :
    c.Moves c.next := by
  have hnext : c.next = ⟨rest, c.position.after a⟩ := by simp only [next, h]
  exact ⟨[a], by rw [h, hnext]; rfl, by rw [hnext]; rfl, by simpa using ha⟩

theorem moves_skip (taken : List Char) {rest : List Char} (h : c.rest = taken ++ rest)
    (ht : ∀ a ∈ taken, isAllowed a = true) : c.Moves (c.skip taken.length) := by
  induction taken generalizing c with
  | nil => exact .refl c
  | cons a taken ih =>
    obtain ⟨ha, ht⟩ := List.forall_mem_cons.mp ht
    have hnext : c.next.rest = taken ++ rest := by simp only [next, h, List.cons_append]
    exact (moves_next h ha).trans (ih hnext ht)

theorem moves_skip_of_startsWith {text : String} (h : c.startsWith text = true) (ht : Allowed text) :
    c.Moves (c.skip text.length) := by
  obtain ⟨rest, hrest⟩ := List.isPrefixOf_iff_prefix.mp h
  exact moves_skip _ hrest.symm ht

theorem moves_of_consume {a : Char} (h : c.consume a = .ok c') (ha : isAllowed a = true) :
    c.Moves c' := by
  unfold consume at h
  split at h
  next => cases h
  next b rest hrest =>
    split at h
    next hb =>
      cases h
      exact moves_next hrest (hb ▸ ha)
    next => cases h

theorem moves_of_consumeAll {text : String} (h : c.consumeAll text = .ok c') (ht : Allowed text) :
    c.Moves c' := by
  unfold consumeAll at h
  split at h
  next hs =>
    cases h
    exact moves_skip_of_startsWith hs ht
  next => cases h

theorem moves_of_scan {stop : List Char → Bool} {s taken : List Char} {p : Position}
    (h : scan stop s p = .ok (taken, c)) : s = taken ++ c.rest ∧ c.position = p.afterAll taken := by
  induction s generalizing p taken c with
  | nil =>
    cases h
    exact ⟨rfl, rfl⟩
  | cons a s ih =>
    unfold scan at h
    split at h
    next => cases h
    next =>
      split at h
      next =>
        cases h
        exact ⟨rfl, rfl⟩
      next =>
        split at h
        next => cases h
        next hrest =>
          cases h
          exact (ih hrest).imp_left (congrArg (a :: ·))

theorem moves_of_text {stop : List Char → Bool} {taken : List Char}
    (h : c.text stop = .ok (taken, c')) : c.Moves c' :=
  ⟨taken, (moves_of_scan h).1, (moves_of_scan h).2, allowed_of_scan h⟩

end Cursor

namespace Reader

open Cursor

variable {c c' : Cursor}

theorem moves_of_name {n : Name} (h : name c = .ok (n, c')) : c.Moves c' := by
  unfold name at h
  rcases ite_eq_iff.mp h with ⟨-, h⟩ | ⟨-, h⟩
  · cases h
  · cases h
    exact moves_span (fun _ => isAllowed_of_isNameChar) c

theorem moves_of_quoteMark {mark : Char} (h : quoteMark c = .ok (mark, c')) :
    isAllowed mark = true ∧ c.Moves c' := by
  unfold quoteMark at h
  split at h
  next => cases h
  next a rest hrest =>
    split at h
    next ha =>
      cases h
      have hmark : isAllowed mark = true := by
        simp only [Bool.or_eq_true, decide_eq_true_eq] at ha
        rcases ha with rfl | rfl <;> rfl
      exact ⟨hmark, moves_next hrest hmark⟩
    next => cases h

theorem moves_of_equalsSign (h : equalsSign c = .ok c') : c.Moves c' := by
  obtain ⟨after, hsign, rfl⟩ := of_map_eq_ok h
  exact ((moves_skipSpace c).trans (moves_of_consume hsign rfl)).trans (moves_skipSpace after)

theorem moves_of_assignment {n : Name} {raw : List Char} {p : Position}
    (h : assignment c = .ok (n, raw, p, c')) : c.Moves c' := by
  unfold assignment at h
  obtain ⟨⟨n', c₁⟩, hname, h⟩ := of_bind_eq_ok h
  obtain ⟨c₂, hsign, h⟩ := of_bind_eq_ok h
  obtain ⟨⟨mark, c₃⟩, hmark, h⟩ := of_bind_eq_ok h
  obtain ⟨⟨raw', c₄⟩, htext, h⟩ := of_bind_eq_ok h
  obtain ⟨c₅, hend, h⟩ := of_bind_eq_ok h
  cases h
  obtain ⟨hallowed, hopening⟩ := moves_of_quoteMark hmark
  exact (((moves_of_name hname).trans (moves_of_equalsSign hsign)).trans hopening).trans
    ((moves_of_text htext).trans (moves_of_consume hend hallowed))

theorem moves_of_header {fuel : Nat} {h h' : Header} {ending : TagEnd}
    (hrun : header fuel h c = .ok (h', ending, c')) : c.Moves c' := by
  induction fuel generalizing h c with
  | zero =>
    cases hrun
    exact .refl _
  | succ fuel ih =>
    unfold header at hrun
    split at hrun
    next =>
      cases hrun
      exact .refl _
    next =>
      simp only at hrun
      split at hrun
      next => cases hrun
      next rest hrest =>
        obtain ⟨c₁, hend, he⟩ := of_map_eq_ok hrun
        cases he
        exact (moves_skipSpace c).trans
          ((moves_next hrest rfl).trans (moves_of_consume hend rfl))
      next rest hrest =>
        cases hrun
        exact (moves_skipSpace c).trans (moves_next hrest rfl)
      next =>
        split at hrun
        next => cases hrun
        next =>
          obtain ⟨⟨n, raw, place, after⟩, hread, hrun⟩ := of_bind_eq_ok hrun
          obtain ⟨value, -, hrun⟩ := of_bind_eq_ok hrun
          obtain ⟨h₁, -, hrun⟩ := of_bind_eq_ok hrun
          exact (moves_skipSpace c).trans ((moves_of_assignment hread).trans (ih hrun))

theorem moves_of_startTag {outer : Scope} {f : Frame} {ending : TagEnd} {rest : List Char}
    (h : startTag outer c = .ok (f, ending, c')) (hc : c.rest = '<' :: rest) : c.Moves c' := by
  unfold startTag at h
  obtain ⟨⟨n, c₁⟩, hname, h⟩ := of_bind_eq_ok h
  simp only at h
  split at h
  next => cases h
  next =>
    obtain ⟨⟨header, ending', c₂⟩, hheader, h⟩ := of_bind_eq_ok h
    have hmoves := (moves_next hc rfl).trans ((moves_of_name hname).trans (moves_of_header hheader))
    simp only at h
    split at h
    next =>
      cases h
      exact hmoves
    next =>
      obtain ⟨attributes, -, h⟩ := of_bind_eq_ok h
      split at h
      next => cases h
      next =>
        cases h
        exact hmoves

theorem moves_of_endTag {n : Name} {rest : List Char} (h : endTag c = .ok (n, c'))
    (hc : c.rest = '<' :: '/' :: rest) : c.Moves c' := by
  unfold endTag at h
  obtain ⟨⟨n', c₁⟩, hname, h⟩ := of_bind_eq_ok h
  obtain ⟨c₂, hend, h⟩ := of_bind_eq_ok h
  cases h
  have hopening : c.Moves (c.skip 2) := moves_skip ['<', '/'] hc (by simp [isAllowed])
  exact (hopening.trans (moves_of_name hname)).trans
    ((moves_skipSpace c₁).trans (moves_of_consume hend rfl))

theorem moves_of_comment (h : comment c = .ok c') (hc : c.startsWith "<!--" = true) :
    c.Moves c' := by
  unfold comment at h
  obtain ⟨⟨raw, c₁⟩, htext, h⟩ := of_bind_eq_ok h
  obtain ⟨c₂, hend, h⟩ := of_bind_eq_ok h
  split at h
  next => cases h
  next =>
    cases h
    exact (moves_skip_of_startsWith hc (by simp [Allowed, isAllowed])).trans
      ((moves_of_text htext).trans (moves_of_consumeAll hend (by simp [Allowed, isAllowed])))

theorem moves_of_instruction {rest : List Char} (h : instruction c = .ok c')
    (hc : c.rest = '<' :: '?' :: rest) : c.Moves c' := by
  unfold instruction at h
  split at h
  next => cases h
  next =>
    simp only at h
    split at h
    next => cases h
    next =>
      split at h
      next => cases h
      next =>
        obtain ⟨⟨raw, c₁⟩, htext, h⟩ := of_bind_eq_ok h
        have hopening : c.Moves (c.skip 2) :=
          moves_skip ['<', '?'] hc (by simp [isAllowed])
        have htarget := moves_span (fun _ => isAllowed_of_isNameChar) (c.skip 2)
        exact (hopening.trans htarget).trans ((moves_skipSpace _).trans
          ((moves_of_text htext).trans (moves_of_consumeAll h (by simp [Allowed, isAllowed]))))

theorem moves_of_literalSection {s : String} (h : literalSection c = .ok (s, c'))
    (hc : c.startsWith "<![CDATA[" = true) : c.Moves c' := by
  unfold literalSection at h
  obtain ⟨⟨raw, c₁⟩, htext, h⟩ := of_bind_eq_ok h
  obtain ⟨c₂, hend, h⟩ := of_bind_eq_ok h
  cases h
  exact (moves_skip_of_startsWith hc (by simp [Allowed, isAllowed])).trans
    ((moves_of_text htext).trans (moves_of_consumeAll hend (by simp [Allowed, isAllowed])))

theorem moves_of_plainText {s : String} (h : plainText c = .ok (s, c')) : c.Moves c' := by
  unfold plainText at h
  obtain ⟨⟨raw, c₁⟩, htext, h⟩ := of_bind_eq_ok h
  simp only at h
  split at h
  next => cases h
  next =>
    obtain ⟨content, -, h⟩ := of_bind_eq_ok h
    cases h
    exact moves_of_text htext

theorem moves_of_content {fuel : Nat} {frame : Frame} {outer : List Frame} {node : Node}
    (h : content fuel frame outer c = .ok (node, c')) : c.Moves c' := by
  induction fuel generalizing frame outer c with
  | zero => cases h
  | succ fuel ih =>
    unfold content at h
    split at h
    next => cases h
    next => cases h
    next =>
      split at h
      next hs =>
        obtain ⟨c₁, hitem, h⟩ := of_bind_eq_ok h
        exact (moves_of_comment hitem hs).trans (ih h)
      next =>
        split at h
        next hs =>
          obtain ⟨⟨s, c₁⟩, hitem, h⟩ := of_bind_eq_ok h
          exact (moves_of_literalSection hitem hs).trans (ih h)
        next => cases h
    next hrest =>
      obtain ⟨c₁, hitem, h⟩ := of_bind_eq_ok h
      exact (moves_of_instruction hitem hrest).trans (ih h)
    next hrest =>
      obtain ⟨⟨n, c₁⟩, hitem, h⟩ := of_bind_eq_ok h
      have hmoves := moves_of_endTag hitem hrest
      simp only at h
      split at h
      next => cases h
      next =>
        split at h
        next =>
          cases h
          exact hmoves
        next => exact hmoves.trans (ih h)
    next hrest =>
      obtain ⟨⟨inner, ending, c₁⟩, hitem, h⟩ := of_bind_eq_ok h
      have hmoves := moves_of_startTag hitem hrest
      cases ending with
      | cut => cases h
      | closed => exact hmoves.trans (ih h)
      | opening => exact hmoves.trans (ih h)
    next =>
      obtain ⟨⟨s, c₁⟩, hitem, h⟩ := of_bind_eq_ok h
      exact (moves_of_plainText hitem).trans (ih h)

theorem moves_of_surroundings {fuel : Nat} (h : surroundings fuel c = .ok c') : c.Moves c' := by
  induction fuel generalizing c with
  | zero =>
    cases h
    exact .refl _
  | succ fuel ih =>
    unfold surroundings at h
    simp only at h
    refine (moves_skipSpace c).trans ?_
    split at h
    next hs =>
      obtain ⟨c₁, hitem, h⟩ := of_bind_eq_ok h
      exact (moves_of_comment hitem hs).trans (ih h)
    next =>
      split at h
      next hs =>
        obtain ⟨c₁, hitem, h⟩ := of_bind_eq_ok h
        obtain ⟨rest, hrest⟩ := List.isPrefixOf_iff_prefix.mp hs
        exact (moves_of_instruction hitem hrest.symm).trans (ih h)
      next =>
        cases h
        exact .refl _

theorem moves_of_declarationSpace (h : declarationSpace c = .ok c') : c.Moves c' := by
  unfold declarationSpace at h
  split at h
  next =>
    cases h
    exact moves_skipSpace c
  next =>
    split at h
    next =>
      split at h
      next =>
        cases h
        exact .refl c
      next => cases h
    next =>
      cases h
      exact .refl c

theorem moves_of_declarationPart (h : declarationPart c = .ok c') : c.Moves c' := by
  unfold declarationPart at h
  obtain ⟨⟨n, raw, p, c₁⟩, hread, h⟩ := of_bind_eq_ok h
  exact (moves_of_assignment hread).trans (moves_of_declarationSpace h)

theorem moves_of_declaration (h : declaration c = .ok c') (hc : c.startsWith "<?xml " = true) :
    c.Moves c' := by
  unfold declaration at h
  obtain ⟨c₁, hspace, h⟩ := of_bind_eq_ok h
  obtain ⟨rest, hrest⟩ := List.isPrefixOf_iff_prefix.mp hc
  have hopening : c.Moves (c.skip 5) :=
    moves_skip ['<', '?', 'x', 'm', 'l'] hrest.symm (by simp [isAllowed])
  have hfirst := hopening.trans (moves_of_declarationSpace hspace)
  split at h
  next => cases h
  next =>
    obtain ⟨c₂, hversion, h⟩ := of_bind_eq_ok h
    obtain ⟨c₃, hencoding, h⟩ := of_optional h
    obtain ⟨c₄, hstandalone, h⟩ := of_optional h
    have hsecond : c₂.Moves c₃ := by
      rcases hencoding with ⟨-, hread⟩ | rfl
      · exact moves_of_declarationPart hread
      · exact .refl _
    have hthird : c₃.Moves c₄ := by
      rcases hstandalone with ⟨-, hread⟩ | rfl
      · obtain ⟨⟨n, raw, p, c₅⟩, hlast, rfl⟩ := of_map_eq_ok hread
        exact moves_of_assignment hlast
      · exact .refl _
    exact ((hfirst.trans (moves_of_declarationPart hversion)).trans (hsecond.trans hthird)).trans
      ((moves_skipSpace c₄).trans (moves_of_consumeAll h (by simp [Allowed, isAllowed])))

theorem moves_of_root {node : Node} (h : root c = .ok (node, c')) : c.Moves c' := by
  unfold root at h
  split at h
  next hrest =>
    obtain ⟨⟨frame, ending, c₁⟩, htag, h⟩ := of_bind_eq_ok h
    have hmoves := moves_of_startTag htag hrest
    cases ending with
    | cut => cases h
    | closed =>
      cases h
      exact hmoves
    | opening => exact hmoves.trans (moves_of_content h)
  next => cases h
  next => cases h

end Reader

theorem allowed_of_ofText {s : String} (h : ∀ a ∈ (Cursor.ofText s).rest, isAllowed a = true) :
    Allowed s := by
  intro a ha
  unfold Cursor.ofText at h
  simp only at h
  split at h
  next b rest hs =>
    split at h
    next hb =>
      -- A byte order mark may stand in a document itself.
      have hmark : isAllowed b = true := by simp [isAllowed, hb]
      have hmoves := Cursor.moves_next (c := ⟨s.toList, Position.first⟩) hs hmark
      exact (hmoves.passes a ha).elim id (h a)
    next => exact h a ha
  next => exact h a ha

/-- A text that can be read holds only characters that may stand in a document. -/
theorem allowed_of_parse {s : String} {node : Node} (h : parse s = .ok node) : Allowed s := by
  refine allowed_of_ofText fun a ha => ?_
  unfold parse at h
  obtain ⟨c₁, hdeclaration, h⟩ := of_optional h
  obtain ⟨c₂, hfront, h⟩ := of_bind_eq_ok h
  have hfirst : (Cursor.ofText s).Moves c₁ := by
    rcases hdeclaration with ⟨hs, hread⟩ | rfl
    · exact Reader.moves_of_declaration hread hs
    · exact .refl _
  split at h
  next => cases h
  next =>
    obtain ⟨⟨root, c₃⟩, hroot, h⟩ := of_bind_eq_ok h
    obtain ⟨c₄, hback, h⟩ := of_bind_eq_ok h
    split at h
    next hend =>
      have hmoves := (hfirst.trans (Reader.moves_of_surroundings hfront)).trans
        ((Reader.moves_of_root hroot).trans (Reader.moves_of_surroundings hback))
      refine (hmoves.passes a ha).resolve_right ?_
      simp [List.isEmpty_iff.mp hend]
    next => cases h

end Xml

end DerivedSignal
