namespace DerivedSignal

/-- A reusable signal without a name for the series it is computed from. -/
structure Snippet where
  name : String
  globals : String
  equation : String
  deriving DecidableEq, Repr

/-- A derived signal: its name, the series whose samples drive it, the preamble of its script and
the expression, in which channels are still named. -/
structure Definition where
  name : String
  linked : String
  globals : String
  expression : String
  deriving DecidableEq, Repr

/-- The signal that a snippet gives for a linked series. -/
def Snippet.instantiate (s : Snippet) (linked : String) : Definition :=
  ⟨s.name, linked, s.globals, s.equation⟩

end DerivedSignal
