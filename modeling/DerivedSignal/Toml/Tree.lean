import DerivedSignal.Toml.Value

namespace DerivedSignal

namespace Toml

/-- A part of a table under construction. A table is implied if it was only needed on the way to
another one, and dotted if it was by a dotted key. Of an array of tables the last one is first. -/
inductive Part where
  | value (v : Value)
  | table (implied dotted : Bool) (members : List (String × Part))
  | tables (elements : List (List (String × Part)))

/-- The members of a table under construction. -/
abbrev Parts := List (String × Part)

namespace Parts

/-- Puts a part in the place of the old one of its key. -/
def replace (key : String) (part : Part) (ps : Parts) : Parts :=
  ps.map fun p => if p.1 = key then (key, part) else p

/-- Goes down a path and changes the table there. Tables that are missing are created. `dotted` says
whether the path is that of a dotted key, and `here` whether the table is one. -/
def descend {α : Type} (dotted : Bool) (change : Bool → Parts → Option (Parts × α)) :
    List String → Bool → Parts → Option (Parts × α)
  | [], here, ps => change here ps
  | key :: path, _, ps =>
    match ps.lookup key with
    | none =>
      (descend dotted change path dotted []).map fun r =>
        (ps ++ [(key, .table true dotted r.1)], r.2)
    | some (.table implied here inner) =>
      if dotted && !implied then none
      else
        (descend dotted change path here inner).map fun r =>
          (replace key (.table implied here r.1) ps, r.2)
    | some (.tables (last :: before)) =>
      (descend dotted change path false last).map fun r =>
        (replace key (.tables (r.1 :: before)) ps, r.2)
    | some _ => none

/-- Gives a value to a dotted key. -/
def assign (ps : Parts) (path : List String) (key : String) (v : Value) : Option Parts :=
  (descend true (fun here ps =>
    if here == path.isEmpty || (ps.lookup key).isSome then none
    else some (ps ++ [(key, .value v)], ())) path false ps).map (·.1)

/-- Gives values to dotted keys one after another. -/
def assignAll : Parts → List (List String × String × Value) → Option Parts
  | ps, [] => some ps
  | ps, (path, key, v) :: rest => (assign ps path key v).bind fun ps => assignAll ps rest

/-- Takes the table of a header out of its place: an implied one, or an empty one. -/
def takeTable (ps : Parts) (path : List String) (key : String) : Option (Parts × Parts) :=
  descend false (fun _ ps =>
    match ps.lookup key with
    | none => some (ps, [])
    | some (.table true false inner) => some (ps.filter fun p => p.1 ≠ key, inner)
    | some _ => none) path false ps

/-- Puts the table of a header into its place. -/
def putTable (ps : Parts) (path : List String) (key : String) (table : Parts) : Option Parts :=
  (descend false (fun _ ps =>
    match ps.lookup key with
    | none => some (ps ++ [(key, .table false false table)], ())
    | some _ => none) path false ps).map (·.1)

/-- Adds a table to an array of tables. -/
def pushTable (ps : Parts) (path : List String) (key : String) (table : Parts) : Option Parts :=
  (descend false (fun _ ps =>
    match ps.lookup key with
    | none => some (ps ++ [(key, .tables [table])], ())
    | some (.tables before) => some (replace key (.tables (table :: before)) ps, ())
    | some _ => none) path false ps).map (·.1)

end Parts

mutual

/-- The finished value of a part. -/
def Part.toValue : Part → Value
  | .value v => v
  | .table _ _ members => .table (finish members)
  | .tables elements => .array (finishAll elements).reverse

/-- The finished members of a table. -/
def finish : List (String × Part) → List (String × Value)
  | [] => []
  | (key, part) :: rest => (key, part.toValue) :: finish rest

/-- The finished tables of an array. -/
def finishAll : List (List (String × Part)) → List Value
  | [] => []
  | t :: ts => .table (finish t) :: finishAll ts

end

end Toml

end DerivedSignal
