namespace DerivedSignal

namespace Text

/-- Ranges of characters that do not show by themselves: controls, separators, format characters,
combining marks, private use and noncharacters. -/
def hiddenRanges : List (Nat × Nat) :=
  [(0x0, 0x1f), (0x7f, 0xa0), (0xad, 0xad), (0x300, 0x36f), (0x483, 0x489), (0x591, 0x5bd),
   (0x5bf, 0x5bf), (0x5c1, 0x5c2), (0x5c4, 0x5c5), (0x5c7, 0x5c7), (0x600, 0x605), (0x610, 0x61a),
   (0x61c, 0x61c), (0x64b, 0x65f), (0x670, 0x670), (0x6d6, 0x6dd), (0x6df, 0x6e4), (0x6e7, 0x6e8),
   (0x6ea, 0x6ed), (0x70e, 0x70f), (0x711, 0x711), (0x730, 0x74c), (0x900, 0x902), (0x93a, 0x93a),
   (0x93c, 0x93c), (0x941, 0x948), (0x94d, 0x94d), (0x951, 0x957), (0x962, 0x963), (0xe31, 0xe31),
   (0xe34, 0xe3a), (0xe47, 0xe4e), (0x135d, 0x135f), (0x1680, 0x1680), (0x180b, 0x180f),
   (0x1ab0, 0x1ace), (0x1dc0, 0x1dff), (0x2000, 0x200f), (0x2028, 0x202f), (0x205f, 0x206f),
   (0x20d0, 0x20f0), (0x2cef, 0x2cf1), (0x2de0, 0x2dff), (0x302a, 0x302f), (0x3000, 0x3000),
   (0x3099, 0x309a), (0xa66f, 0xa672), (0xa674, 0xa67d), (0xd7fc, 0xf8ff), (0xfb1e, 0xfb1e),
   (0xfdd0, 0xfdef), (0xfe00, 0xfe0f), (0xfe20, 0xfe2f), (0xfeff, 0xfeff), (0xfff0, 0xfffb),
   (0xfffe, 0xffff), (0x1d165, 0x1d169), (0x1d16d, 0x1d182), (0xe0000, 0xe0fff),
   (0xf0000, 0x10ffff)]

/-- Whether a character is written as a code in quoted text. -/
def isHidden (c : Char) : Bool :=
  hiddenRanges.any fun r => r.1 ≤ c.toNat && c.toNat ≤ r.2

/-- The braces of a character code. -/
def charCode (c : Char) : String :=
  "\\u\x7b" ++ String.ofList (Nat.toDigits 16 c.toNat) ++ "\x7d"

/-- One character of a quoted text, where `marks` are the quote marks that need an escape. -/
def escapeChar (marks : List Char) (c : Char) : String :=
  if c = Char.ofNat 0 then "\\0"
  else if c = '\t' then "\\t"
  else if c = '\r' then "\\r"
  else if c = '\n' then "\\n"
  else if c = '\\' then "\\\\"
  else if marks.contains c then "\\" ++ c.toString
  else if isHidden c then charCode c
  else c.toString

/-- A text between double quotes. -/
def quoted (s : String) : String :=
  "\"" ++ String.join (s.toList.map (escapeChar ['\x22'])) ++ "\""

/-- A file path between double quotes; apostrophes are escaped too. -/
def quotedPath (s : String) : String :=
  "\"" ++ String.join (s.toList.map (escapeChar ['\x22', '\x27'])) ++ "\""

/-- A character between apostrophes. -/
def quotedChar (c : Char) : String :=
  "'" ++ escapeChar ['\x27'] c ++ "'"

end Text

end DerivedSignal
