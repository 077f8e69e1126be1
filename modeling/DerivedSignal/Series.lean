import DerivedSignal.Number.FloatMath

namespace DerivedSignal

/-- A sample: the timestamp `x` in seconds and the value `y`. -/
structure Point where
  x : Float
  y : Float
  deriving DecidableEq

/-- The end of a search by halving, between two indices, for the first element without a property. Where elements
with the property and without it are mixed it may end anywhere between the two indices. -/
def bisect {α : Type} (f : α → Bool) (xs : List α) (low high : Nat) : Nat :=
  if low < high then
    if xs[(low + high) / 2]?.any f then bisect f xs ((low + high) / 2 + 1) high
    else bisect f xs low ((low + high) / 2)
  else low
termination_by high - low

/-- Samples in the order in which they were put into place, which is ascending in `x` unless one lies at NaN. A bound
is the widest range of `x` that is retained. -/
structure Series where
  points : List Point
  bound : Option Float
  deriving DecidableEq

namespace Series

/-- No samples and no bound. -/
def empty : Series := ⟨[], none⟩

instance : Inhabited Series := ⟨empty⟩

/-- The number of samples. -/
def size (s : Series) : Nat := s.points.length

/-- Whether there are no samples. -/
def isEmpty (s : Series) : Bool := s.points.isEmpty

/-- The sample at an index. -/
def at? (s : Series) (index : Nat) : Option Point := s.points[index]?

/-- The first sample. -/
def front? (s : Series) : Option Point := s.points.head?

/-- The last sample. -/
def back? (s : Series) : Option Point := s.points.getLast?

/-- Drops the samples at the front that lie further than `bound` before the last one. -/
def evict (bound : Option Float) (points : List Point) : List Point :=
  match bound, points.getLast? with
  | some bound, some back => points.dropWhile fun p => p.x < back.x - bound
  | _, _ => points

/-- The index of the first sample later than `x`; the number of samples if there is none. -/
def indexAfter (x : Float) (points : List Point) : Nat := bisect (fun p => p.x ≤ x) points 0 points.length

/-- Puts a sample before the first that is later than it; one that is not earlier than the last goes to the end. -/
def place (p : Point) (points : List Point) : List Point :=
  match points.getLast? with
  | some back => if p.x < back.x then points.insertIdx (indexAfter p.x points) p else points ++ [p]
  | none => [p]

/-- Adds a sample in its place and drops what leaves the window. -/
def push (s : Series) (p : Point) : Series :=
  { s with points := evict s.bound (place p s.points) }

/-- Adds samples one after another. -/
def pushAll (s : Series) (ps : List Point) : Series := ps.foldl push s

/-- The series of some samples, without a bound. -/
def ofList (ps : List Point) : Series := empty.pushAll ps

/-- Drops all samples; the bound stays. -/
def clear (s : Series) : Series := { s with points := [] }

/-- Sets the retention window and drops what lies outside. -/
def setBound (s : Series) (bound : Option Float) : Series := ⟨evict bound s.points, bound⟩

/-- The index of the first sample later than `x`; the size if there is none. -/
def firstAfter (s : Series) (x : Float) : Nat := indexAfter x s.points

/-- The index of the last sample not later than `x`. -/
def nearest? (s : Series) (x : Float) : Option Nat :=
  match s.firstAfter x with
  | 0 => none
  | index + 1 => some index

/-- The value of the last sample not later than `x`, or NaN. -/
def valueAt (s : Series) (x : Float) : Float :=
  match (s.nearest? x).bind s.at? with
  | some p => p.y
  | none => FloatMath.nan

/-- The samples later than `x`. -/
def after (s : Series) (x : Float) : List Point := s.points.drop (s.firstAfter x)

/-- The first and the last timestamp. -/
def range? (s : Series) : Option (Float × Float) :=
  match s.front?, s.back? with
  | some front, some back => some (front.x, back.x)
  | _, _ => none

end Series

end DerivedSignal
