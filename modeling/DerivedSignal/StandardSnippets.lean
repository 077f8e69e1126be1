import DerivedSignal.Definition

namespace DerivedSignal

namespace StandardSnippets

/-- Lines of a script between empty ones. -/
def script (lines : List String) : String := "\n" ++ String.join (lines.map (· ++ "\n"))

/-- The variables that keep the sample before. -/
def previousSample : List String :=
  ["let first = true;", "let prev_t = 0.0;", "let prev_v = 0.0;"]

/-- The statements that keep the sample for the next call. -/
def keepSample : List String := ["first = false;", "prev_t = time;", "prev_v = value;"]

/-- The rate of change. -/
def derivative : Snippet :=
  ⟨"derivative", script previousSample,
    script (["let d = if first || time <= prev_t \x7b 0.0 \x7d else " ++
      "\x7b (value - prev_v) / (time - prev_t) \x7d;"] ++ keepSample ++ ["d"])⟩

/-- The integral by trapezoids. -/
def integral : Snippet :=
  ⟨"integral", script (previousSample ++ ["let area = 0.0;"]),
    script (["if !first \x7b", "    area += (value + prev_v) * (time - prev_t) / 2.0;", "\x7d"] ++
      keepSample ++ ["area"])⟩

/-- The distance from the first sample. -/
def removeOffset : Snippet :=
  ⟨"remove_offset", script ["let first = true;", "let offset = 0.0;"],
    script ["if first \x7b", "    offset = value;", "    first = false;", "\x7d", "value - offset"]⟩

/-- Degrees for radians. -/
def radToDeg : Snippet := ⟨"rad_to_deg", "", "value * 180.0 / pi()"⟩

/-- Radians for degrees. -/
def degToRad : Snippet := ⟨"deg_to_rad", "", "value * pi() / 180.0"⟩

/-- Sine and cosine as two outputs. -/
def sinCos : Snippet := ⟨"sin_cos", "", "[sin(value), cos(value)]"⟩

/-- The negative and the positive part as two outputs. -/
def splitSign : Snippet :=
  ⟨"split_sign", "", "#\x7b neg: min(value, 0.0), pos: max(value, 0.0) \x7d"⟩

/-- All of them. -/
def all : List Snippet :=
  [derivative, integral, removeOffset, radToDeg, degToRad, sinCos, splitSign]

end StandardSnippets

end DerivedSignal
