import DerivedSignal.Proofs.ContentReading
import DerivedSignal.Proofs.ReadableTexts

namespace DerivedSignal

namespace Xml

open Reader

theorem Position.row_afterAll (p : Position) (cs : List Char) :
    (p.afterAll cs).row = p.row + cs.count '\n' := by
  induction cs generalizing p with
  | nil => rfl
  | cons c cs ih =>
    rw [show p.afterAll (c :: cs) = (p.after c).afterAll cs from rfl, ih, after, List.count_cons]
    split
    next hc =>
      subst hc
      simp only [beq_self_eq_true, if_true]
      omega
    next hc => simp [hc]

/-- A place in a text: what stands before it and what follows. -/
structure Place (s : String) where
  before : List Char
  rest : List Char
  whole : before ++ rest = s.toList

namespace Place

variable {s : String}

/-- The row of a place. -/
def row (p : Place s) : Nat := 1 + p.before.count '\n'

/-- The reader's cursor at a place. -/
def cursor (p : Place s) : Cursor := ⟨p.rest, Position.first.afterAll p.before⟩

theorem row_cursor (p : Place s) : p.cursor.position.row = p.row :=
  Position.row_afterAll Position.first p.before

/-- A cursor that is reached from a place of a text is at a place of it, too. -/
theorem exists_of_moves (p : Place s) {c : Cursor} (h : p.cursor.Moves c) : ∃ q : Place s, q.cursor = c := by
  obtain ⟨taken, hrest, hposition, -⟩ := h
  obtain ⟨before, rest, whole⟩ := p
  obtain ⟨left, position⟩ := c
  refine ⟨⟨before ++ taken, left, ?_⟩, ?_⟩
  · rw [List.append_assoc, ← whole]
    exact congrArg (before ++ ·) hrest.symm
  · simp only [cursor, Cursor.mk.injEq, true_and]
    rw [Position.afterAll, List.foldl_append]
    exact hposition.symm

theorem exists_ofText (s : String) : ∃ p : Place s, p.cursor = Cursor.ofText s := by
  let start : Place s := ⟨[], s.toList, rfl⟩
  unfold Cursor.ofText
  simp only
  split
  next a rest hs =>
    split
    next hmark => exact start.exists_of_moves (Cursor.moves_next hs (by simp [isAllowed, hmark]))
    next => exact ⟨start, rfl⟩
  next => exact ⟨start, rfl⟩

end Place

mutual

/-- An element that a text spells from one place to another, with its children and the places at which they
start. -/
inductive Spelled {s : String} : Scope → Place s → List (Place s × Node) → Node → Place s → Prop
  | empty {scope : Scope} {p q : Place s} {f : Frame} (starts : p.cursor.startsWith "<" = true)
      (tag : startTag scope p.cursor = .ok (f, .closed, q.cursor)) :
      Spelled scope p [] (.element f.name.base f.attributes p.row []) q
  | filled {scope : Scope} {p q r t : Place s} {f : Frame} {children : List (Place s × Node)}
      (starts : p.cursor.startsWith "<" = true)
      (opening : startTag scope p.cursor = .ok (f, .opening, q.cursor))
      (inside : Content f.scope q children r) (stops : r.cursor.startsWith "</" = true)
      (closing : endTag r.cursor = .ok (f.name, t.cursor)) :
      Spelled scope p children (.element f.name.base f.attributes p.row (children.map (·.2))) t

/-- What a text spells inside an element from one place to another. -/
inductive Content {s : String} : Scope → Place s → List (Place s × Node) → Place s → Prop
  | nothing {scope : Scope} {p : Place s} : Content scope p [] p
  | comment {scope : Scope} {p q r : Place s} {children : List (Place s × Node)}
      (starts : p.cursor.startsWith "<!--" = true) (skipped : comment p.cursor = .ok q.cursor)
      (more : Content scope q children r) : Content scope p children r
  | instruction {scope : Scope} {p q r : Place s} {children : List (Place s × Node)}
      (starts : p.cursor.startsWith "<?" = true) (skipped : instruction p.cursor = .ok q.cursor)
      (more : Content scope q children r) : Content scope p children r
  | literal {scope : Scope} {p q r : Place s} {children : List (Place s × Node)} {text : String}
      (starts : p.cursor.startsWith "<![CDATA[" = true)
      (item : literalSection p.cursor = .ok (text, q.cursor)) (more : Content scope q children r) :
      Content scope p ((p, .text text) :: children) r
  | plain {scope : Scope} {p q r : Place s} {children : List (Place s × Node)} {text : String}
      (starts : p.cursor.startsWith "<" = false) (item : plainText p.cursor = .ok (text, q.cursor))
      (more : Content scope q children r) : Content scope p ((p, .text text) :: children) r
  | element {scope : Scope} {p q r : Place s} {inner children : List (Place s × Node)} {node : Node}
      (item : Spelled scope p inner node q) (more : Content scope q children r) :
      Content scope p ((p, node) :: children) r

end

variable {s : String}

theorem Spelled.row {scope : Scope} {p q : Place s} {children : List (Place s × Node)} {node : Node}
    (h : Spelled scope p children node q) : node.row = p.row := by
  cases h <;> rfl

theorem Spelled.children_eq {scope : Scope} {p q : Place s} {children : List (Place s × Node)} {node : Node}
    (h : Spelled scope p children node q) : node.children = children.map (·.2) := by
  cases h <;> rfl

theorem Content.row {scope : Scope} {p q : Place s} {children : List (Place s × Node)}
    (h : Content scope p children q) :
    ∀ child ∈ children, child.2.name?.isSome = true → child.2.row = child.1.row := by
  intro child hchild hname
  match h with
  | .nothing => cases hchild
  | .comment _ _ more => exact more.row child hchild hname
  | .instruction _ _ more => exact more.row child hchild hname
  | .literal _ _ more =>
    rcases List.mem_cons.mp hchild with rfl | hchild
    · cases hname
    · exact more.row child hchild hname
  | .plain _ _ more =>
    rcases List.mem_cons.mp hchild with rfl | hchild
    · cases hname
    · exact more.row child hchild hname
  | .element item more =>
    rcases List.mem_cons.mp hchild with rfl | hchild
    · exact item.row
    · exact more.row child hchild hname

/-- The children of an element start on the rows of their places. -/
theorem Spelled.child_row {scope : Scope} {p q : Place s} {children : List (Place s × Node)} {node : Node}
    (h : Spelled scope p children node q) :
    ∀ child ∈ children, child.2.name?.isSome = true → child.2.row = child.1.row := by
  cases h with
  | empty => intro child hchild; cases hchild
  | filled _ _ inside => exact inside.row

theorem of_startTag {scope : Scope} {c c' : Cursor} {f : Frame} {ending : TagEnd}
    (h : startTag scope c = .ok (f, ending, c')) : f.row = c.position.row ∧ f.children = [] := by
  unfold startTag at h
  obtain ⟨⟨n, c₁⟩, -, h⟩ := of_bind_eq_ok h
  simp only at h
  split at h
  next => cases h
  next =>
    obtain ⟨⟨header, ending', c₂⟩, -, h⟩ := of_bind_eq_ok h
    simp only at h
    split at h
    next =>
      cases h
      exact ⟨rfl, rfl⟩
    next =>
      obtain ⟨attributes, -, h⟩ := of_bind_eq_ok h
      split at h
      next => cases h
      next =>
        cases h
        exact ⟨rfl, rfl⟩

/-- The element of a start tag with some children. -/
theorem toNode_of_startTag {scope : Scope} {p : Place s} {c : Cursor} {f : Frame} {ending : TagEnd}
    (h : startTag scope p.cursor = .ok (f, ending, c)) (ns : List Node) :
    (f.pushAll ns).toNode = .element f.name.base f.attributes p.row ns := by
  obtain ⟨hrow, hchildren⟩ := of_startTag h
  simp [Frame.pushAll, Frame.toNode, hchildren, hrow, p.row_cursor]

/-- How a reading goes on behind a finished element: it ends there, or the element joins the children of the
one around it. -/
def GoesOn (outer : List Frame) (fuel : Nat) (node : Node) (c : Cursor) (result : Node × Cursor) : Prop :=
  match outer with
  | [] => result = (node, c)
  | parent :: outer => ∃ n ≤ fuel, content n (parent.push node) outer c = .ok result

theorem GoesOn.mono {outer : List Frame} {fuel fuel' : Nat} {node : Node} {c : Cursor} {result : Node × Cursor}
    (h : GoesOn outer fuel node c result) (hle : fuel ≤ fuel') : GoesOn outer fuel' node c result := by
  cases outer with
  | nil => exact h
  | cons parent outer => exact h.imp fun n hn => ⟨hn.1.trans hle, hn.2⟩

/-- The rest of the innermost element as the text spells it, up to its end tag. -/
def Finishes (frame : Frame) (outer : List Frame) (fuel : Nat) (p : Place s) (result : Node × Cursor) : Prop :=
  ∃ (children : List (Place s × Node)) (r t : Place s), Content frame.scope p children r ∧
    r.cursor.startsWith "</" = true ∧ endTag r.cursor = .ok (frame.name, t.cursor) ∧
    GoesOn outer fuel (frame.pushAll (children.map (·.2))).toNode t.cursor result

section

variable {frame : Frame} {outer : List Frame} {fuel : Nat} {p q : Place s} {result : Node × Cursor}

theorem Finishes.mono {fuel' : Nat} (h : Finishes frame outer fuel p result) (hle : fuel ≤ fuel') :
    Finishes frame outer fuel' p result := by
  obtain ⟨children, r, t, hinside, hstops, hclosing, hgoes⟩ := h
  exact ⟨children, r, t, hinside, hstops, hclosing, hgoes.mono hle⟩

/-- A step that adds no child. -/
theorem Finishes.skip (hstep : ∀ {children r}, Content frame.scope q children r → Content frame.scope p children r)
    (h : Finishes frame outer fuel q result) : Finishes frame outer fuel p result := by
  obtain ⟨children, r, t, hinside, hrest⟩ := h
  exact ⟨children, r, t, hstep hinside, hrest⟩

/-- A step that adds a child. -/
theorem Finishes.push {node : Node} (hstep : ∀ {children r}, Content frame.scope q children r →
      Content frame.scope p ((p, node) :: children) r)
    (h : Finishes (frame.push node) outer fuel q result) : Finishes frame outer fuel p result := by
  obtain ⟨children, r, t, hinside, hstops, hclosing, hgoes⟩ := h
  refine ⟨(p, node) :: children, r, t, hstep hinside, hstops, hclosing, ?_⟩
  have hnode : (frame.push node).pushAll (children.map (·.2)) = frame.pushAll (node :: children.map (·.2)) := by
    simp [Frame.push, Frame.pushAll]
  exact hnode ▸ hgoes

end

/-- What the reader makes of the content of nested elements is what the text spells. -/
theorem finishes_of_content {frame : Frame} {outer : List Frame} {fuel : Nat} {p : Place s}
    {result : Node × Cursor} (h : content fuel frame outer p.cursor = .ok result) :
    Finishes frame outer fuel p result := by
  induction fuel using Nat.strong_induction_on generalizing frame outer p with
  | h fuel ih =>
    cases fuel with
    | zero => cases h
    | succ fuel =>
      -- The reading that is left behind the first item, with the fuel that is left.
      have hrest {frame : Frame} {outer : List Frame} {q : Place s}
          (h : content fuel frame outer q.cursor = .ok result) : Finishes frame outer (fuel + 1) q result :=
        (ih fuel (Nat.lt_succ_self fuel) h).mono (Nat.le_succ fuel)
      unfold content at h
      split at h
      next => cases h
      next => cases h
      next =>
        split at h
        next hs =>
          obtain ⟨c, hitem, h⟩ := of_bind_eq_ok h
          obtain ⟨q, rfl⟩ := p.exists_of_moves (moves_of_comment hitem hs)
          exact (hrest h).skip (.comment hs hitem)
        next =>
          split at h
          next hs =>
            obtain ⟨⟨text, c⟩, hitem, h⟩ := of_bind_eq_ok h
            obtain ⟨q, rfl⟩ := p.exists_of_moves (moves_of_literalSection hitem hs)
            exact (hrest h).push (.literal hs hitem)
          next => cases h
      next hcursor =>
        obtain ⟨c, hitem, h⟩ := of_bind_eq_ok h
        obtain ⟨q, rfl⟩ := p.exists_of_moves (moves_of_instruction hitem hcursor)
        exact (hrest h).skip (.instruction (by simp [Cursor.startsWith, hcursor, List.isPrefixOf]) hitem)
      next hcursor =>
        obtain ⟨⟨name, c⟩, hitem, h⟩ := of_bind_eq_ok h
        obtain ⟨t, rfl⟩ := p.exists_of_moves (moves_of_endTag hitem hcursor)
        simp only at h
        split at h
        next => cases h
        next hname =>
          refine ⟨[], p, t, .nothing, by simp [Cursor.startsWith, hcursor, List.isPrefixOf], ?_, ?_⟩
          · rw [hitem, not_not.mp hname]
          · split at h
            next =>
              cases h
              rfl
            next => exact ⟨fuel, Nat.le_succ fuel, h⟩
      next hcursor =>
        obtain ⟨⟨inner, ending, c⟩, hitem, h⟩ := of_bind_eq_ok h
        obtain ⟨q, rfl⟩ := p.exists_of_moves (moves_of_startTag hitem hcursor)
        have hstarts : p.cursor.startsWith "<" = true := by simp [Cursor.startsWith, hcursor, List.isPrefixOf]
        cases ending with
        | cut => cases h
        | closed =>
          have hnode : inner.toNode = .element inner.name.base inner.attributes p.row [] :=
            toNode_of_startTag hitem []
          exact (hrest h).push fun hmore => hnode ▸ .element (.empty hstarts hitem) hmore
        | opening =>
          -- The element inside ends first; then the reading goes on in the one around it.
          obtain ⟨children, r, t, hinside, hstops, hclosing, n, hn, h⟩ := ih fuel (Nat.lt_succ_self fuel) h
          have hitem' := Spelled.filled hstarts hitem hinside hstops hclosing
          rw [← toNode_of_startTag hitem] at hitem'
          exact ((ih n (Nat.lt_succ_of_le hn) h).mono (hn.trans (Nat.le_succ fuel))).push (.element hitem')
      next hlast =>
        obtain ⟨⟨text, c⟩, hitem, h⟩ := of_bind_eq_ok h
        obtain ⟨q, rfl⟩ := p.exists_of_moves (moves_of_plainText hitem)
        refine (hrest h).push (.plain (Bool.eq_false_iff.mpr fun hs => ?_) hitem)
        obtain ⟨tail, htail⟩ := List.isPrefixOf_iff_prefix.mp hs
        exact hlast tail htail.symm

theorem spelled_of_root {p : Place s} {node : Node} {c : Cursor} (h : root p.cursor = .ok (node, c)) :
    ∃ (children : List (Place s × Node)) (q : Place s), Spelled [] p children node q ∧ q.cursor = c := by
  unfold root at h
  split at h
  next hcursor =>
    obtain ⟨⟨frame, ending, c₁⟩, htag, h⟩ := of_bind_eq_ok h
    obtain ⟨q, rfl⟩ := p.exists_of_moves (moves_of_startTag htag hcursor)
    have hstarts : p.cursor.startsWith "<" = true := by simp [Cursor.startsWith, hcursor, List.isPrefixOf]
    have hnode := toNode_of_startTag htag
    cases ending with
    | cut => cases h
    | closed =>
      cases h
      rw [show frame.toNode = .element frame.name.base frame.attributes p.row [] from hnode []]
      exact ⟨[], q, .empty hstarts htag, rfl⟩
    | opening =>
      obtain ⟨children, r, t, hinside, hstops, hclosing, hgoes⟩ := finishes_of_content h
      cases hgoes
      rw [hnode]
      exact ⟨children, t, .filled hstarts htag hinside hstops hclosing, rfl⟩
  next => cases h
  next => cases h

/-- The cursor behind what may stand in front of the root element: a declaration, comments and processing
instructions. -/
def front (s : String) : Except Fault Cursor := do
  let c := Cursor.ofText s
  let fuel := c.rest.length + 1
  let c ← if c.startsWith "<?xml " then declaration c else pure c
  surroundings fuel c

/-- A document that a text spells: the root element starts at a place, its children at theirs, and only
comments and processing instructions follow it. -/
structure Outline (s : String) (start : Place s) (children : List (Place s × Node)) (root : Node) : Prop where
  front : front s = .ok start.cursor
  root : ∃ stop, Spelled [] start children root stop ∧
    ∃ c, surroundings ((Cursor.ofText s).rest.length + 1) stop.cursor = .ok c ∧ c.rest = []

theorem moves_of_front {c : Cursor} (h : front s = .ok c) : (Cursor.ofText s).Moves c := by
  unfold front at h
  obtain ⟨c₁, hdeclaration, h⟩ := of_optional h
  rcases hdeclaration with ⟨hs, hread⟩ | rfl
  · exact (moves_of_declaration hread hs).trans (moves_of_surroundings h)
  · exact moves_of_surroundings h

theorem parse_eq (s : String) : parse s = (do
    let c ← front s
    if c.startsWith "<!DOCTYPE" then Cursor.failAll .doctype
    else
      let (node, c) ← root c
      let c ← surroundings ((Cursor.ofText s).rest.length + 1) c
      if c.rest.isEmpty then return node else c.fail .unknownToken) := by
  unfold parse front
  simp only
  split
  next => rw [bind_assoc]
  next => rw [pure_bind, pure_bind]

theorem exists_outline {node : Node} (h : parse s = .ok node) :
    ∃ start children, Outline s start children node := by
  rw [parse_eq] at h
  obtain ⟨c, hfront, h⟩ := of_bind_eq_ok h
  obtain ⟨first, hfirst⟩ := Place.exists_ofText s
  obtain ⟨start, rfl⟩ := first.exists_of_moves (hfirst ▸ moves_of_front hfront)
  split at h
  next => cases h
  next =>
    obtain ⟨⟨node', c₁⟩, hroot, h⟩ := of_bind_eq_ok h
    obtain ⟨children, stop, hspelled, rfl⟩ := spelled_of_root hroot
    obtain ⟨c₂, hback, h⟩ := of_bind_eq_ok h
    split at h
    next hend =>
      cases h
      exact ⟨start, children, hfront, stop, hspelled, c₂, hback, List.isEmpty_iff.mp hend⟩
    next => cases h

end Xml

end DerivedSignal
