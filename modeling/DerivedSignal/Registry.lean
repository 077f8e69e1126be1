import DerivedSignal.NameMap
import DerivedSignal.Series

namespace DerivedSignal

/-- Series under their names. -/
abbrev Registry := NameMap Series

/-- Samples of several series under their names. -/
abbrev Snapshot := NameMap (List Point)

namespace Registry

/-- The registry with an empty series under a name, whatever stood there. -/
def create (r : Registry) (name : String) : Registry := r.insert name Series.empty

/-- The series under a name, an empty one if there is none. -/
def getD (r : Registry) (name : String) : Series := (r.find? name).getD Series.empty

/-- The registry with a series under a name, and whether it had to be created. -/
def ensure (r : Registry) (name : String) : Registry × Bool :=
  if r.contains name then (r, false) else (r.create name, true)

/-- Changes the series under a name, if there is one. -/
def modify (r : Registry) (name : String) (f : Series → Series) : Registry :=
  match r.find? name with
  | some s => r.insert name (f s)
  | none => r

/-- The registry of some samples. -/
def ofSnapshot (s : Snapshot) : Registry := s.mapValues Series.ofList

/-- The samples of all series. -/
def snapshot (r : Registry) : Snapshot := r.mapValues (·.points)

/-- The samples of the wanted series. -/
def snapshotOf (r : Registry) (wanted : List String) : Snapshot :=
  snapshot (r.restrict fun name => wanted.contains name)

end Registry

end DerivedSignal
