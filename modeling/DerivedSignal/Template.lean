import DerivedSignal.Error

namespace DerivedSignal

namespace Template

/-- The script variable that holds the timestamp of the sample. -/
def timeVariable : String := "time"

/-- The script variable that holds the value of the sample. -/
def valueVariable : String := "value"

/-- The script variable that holds the values of the auxiliary channels. -/
def channelsVariable : String := "CHANNEL_VALUES"

/-- A piece of an expression: plain text or the name between two delimiters. -/
inductive Segment where
  | text (literal : List Char)
  | channel (name : List Char)
  deriving DecidableEq, Repr

/-- The text that a piece stands for. -/
def Segment.written : Segment → List Char
  | .text cs => cs
  | .channel cs => '$' :: '$' :: cs ++ ['$', '$']

/-- The text before and after the first `$$`. -/
def cut? : List Char → Option (List Char × List Char)
  | '$' :: '$' :: rest => some ([], rest)
  | c :: rest => (cut? rest).map fun (before, after) => (c :: before, after)
  | [] => none

theorem length_of_cut? {s before after : List Char} (h : cut? s = some (before, after)) :
    before.length + after.length + 2 = s.length := by
  induction s using cut?.induct generalizing before after with
  | case1 rest => simp_all [cut?]
  | case2 c rest hne ih =>
    rw [cut?] at h
    · obtain ⟨⟨b, a⟩, hb, he⟩ := Option.map_eq_some_iff.mp h
      simp only [Prod.mk.injEq] at he
      obtain ⟨rfl, rfl⟩ := he
      simp only [List.length_cons, ← ih hb]
      omega
    · exact hne
  | case3 => simp [cut?] at h

theorem append_of_cut? {s before after : List Char} (h : cut? s = some (before, after)) :
    before ++ '$' :: '$' :: after = s := by
  induction s using cut?.induct generalizing before after with
  | case1 rest => simp_all [cut?]
  | case2 c rest hne ih =>
    rw [cut?] at h
    · obtain ⟨⟨b, a⟩, hb, he⟩ := Option.map_eq_some_iff.mp h
      simp only [Prod.mk.injEq] at he
      obtain ⟨rfl, rfl⟩ := he
      simp only [List.cons_append, ih hb]
    · exact hne
  | case3 => simp [cut?] at h

/-- A literal piece, unless it is empty. -/
def literal : List Char → List Segment
  | [] => []
  | cs => [.text cs]

theorem written_literal (cs : List Char) : (literal cs).flatMap Segment.written = cs := by
  cases cs <;> simp [literal, Segment.written]

/-- The pieces of an expression; nothing if a delimiter is left open. -/
def scan (s : List Char) : Option (List Segment) :=
  match _h : cut? s with
  | none => some (literal s)
  | some (before, opened) =>
    match h' : cut? opened with
    | none => none
    | some (name, rest) =>
      (scan rest).map fun segments => literal before ++ .channel name :: segments
termination_by s.length
decreasing_by
  have := length_of_cut? _h
  have := length_of_cut? h'
  omega

/-- The pieces of an expression are nothing but the expression. -/
theorem written_of_scan {s : List Char} {segments : List Segment} (h : scan s = some segments) :
    segments.flatMap Segment.written = s := by
  fun_induction scan s generalizing segments with
  | case1 s hs =>
    cases Option.some.inj h
    exact written_literal s
  | case2 => cases h
  | case3 s before opened hs name rest hname ih =>
    obtain ⟨after, hafter, rfl⟩ := Option.map_eq_some_iff.mp h
    rw [List.flatMap_append, List.flatMap_cons, written_literal, ih hafter,
      ← append_of_cut? hs, ← append_of_cut? hname]
    simp [Segment.written]

/-- The names of the channels among some pieces, in order of appearance. -/
def channelNames (segments : List Segment) : List String :=
  segments.filterMap fun
    | .channel name => some (String.ofList name)
    | .text _ => none

/-- An expression without references and the names of its auxiliary channels by slot. -/
structure Slotted where
  text : String
  channels : List String
  deriving DecidableEq, Repr

/-- The slots after one more use of a channel. -/
def addChannel (channels : List String) (name : String) : List String :=
  if channels.contains name then channels else channels ++ [name]

/-- Appends a piece, with a variable in the place of a reference. -/
def step (linked : String) (done : Slotted) : Segment → Slotted
  | .text cs => { done with text := done.text ++ String.ofList cs }
  | .channel cs =>
    let name := String.ofList cs
    if name = linked then { done with text := done.text ++ valueVariable }
    else
      let channels := addChannel done.channels name
      ⟨done.text ++ channelsVariable ++ "[" ++ toString (channels.idxOf name) ++ "]", channels⟩

/-- Replaces every reference of an expression by a variable, and gives the channels their slots. -/
def assignSlots (expression linked : String) : Except Error Slotted :=
  match scan expression.toList with
  | some segments => .ok (segments.foldl (step linked) ⟨"", []⟩)
  | none => .error (.malformed "invalid use of $$ macro")

/-- Every channel referenced by an expression, repetitions and the linked series included; none
if a delimiter is left open. -/
def channelsIn (expression : String) : List String :=
  match scan expression.toList with
  | some segments => channelNames segments
  | none => []

end Template

end DerivedSignal
