import DerivedSignal.NameMap
import DerivedSignal.Number.Text
import DerivedSignal.OutputShape
import DerivedSignal.Text.Quoted

namespace DerivedSignal

namespace Script

/-- A value. A map holds its keys and, side by side with them, its values. -/
inductive Value where
  | unit
  | bool (b : Bool)
  | int (n : Int)
  | float (x : Float)
  | char (c : Char)
  | string (s : String)
  | array (items : List Value)
  | map (keys : NameMap.Keys) (values : List Value)
  | range (first last : Int) (closed : Bool)

namespace Value

instance : Inhabited Value := ⟨unit⟩

/-- The value of a map. -/
def ofMap (m : NameMap Value) : Value := map m.keys m.values

/-- The name of the type of a value, as results and type errors spell it. -/
def typeName : Value → String
  | unit => "()"
  | bool _ => "bool"
  | int _ => "i64"
  | float _ => "f64"
  | char _ => "char"
  | string _ => "string"
  | array _ => "array"
  | map _ _ => "map"
  | range _ _ false => "range"
  | range _ _ true => "range="

/-- The name of the type of an argument in the signature of a missing function. -/
def signatureName : Value → String
  | string _ => "&str | ImmutableString | String"
  | v => v.typeName

/-- The name of the type of a result that is no number, array or map. -/
def resultName : Value → String
  | range _ _ false => "core::ops::range::Range<i64>"
  | range _ _ true => "core::ops::range::RangeInclusive<i64>"
  | v => v.typeName

/-- The double of a number. -/
def toFloat? : Value → Option Float
  | int n => some (FloatMath.ofInt n)
  | float x => some x
  | _ => none

mutual

/-- The text of a value within another one. -/
def inner : Value → String
  | unit => "()"
  | bool b => if b then "true" else "false"
  | int n => toString n
  | float x => NumberText.script x
  | char c => Text.quotedChar c
  | string s => Text.quoted s
  | array items => "[" ++ ", ".intercalate (innerItems items) ++ "]"
  | map keys values => "#\x7b" ++ ", ".intercalate (innerEntries keys.val values) ++ "\x7d"
  | range first last closed => toString first ++ (if closed then "..=" else "..") ++ toString last

/-- The texts of the items of an array. -/
def innerItems : List Value → List String
  | [] => []
  | v :: vs => v.inner :: innerItems vs

/-- The texts of the entries of a map. -/
def innerEntries : List String → List Value → List String
  | key :: keys, v :: vs => (Text.quoted key ++ ": " ++ v.inner) :: innerEntries keys vs
  | _, _ => []

end

/-- The text of a value: texts and characters stand for themselves, and nothing has no text. -/
def text : Value → String
  | unit => ""
  | char c => c.toString
  | string s => s
  | v => v.inner

/-- How many array elements, map entries and bytes of text a value holds in all. -/
structure Extent where
  elements : Nat
  entries : Nat
  bytes : Nat

namespace Extent

instance : Add Extent :=
  ⟨fun a b => ⟨a.elements + b.elements, a.entries + b.entries, a.bytes + b.bytes⟩⟩

end Extent

mutual

/-- The extent of a value. -/
def extent : Value → Extent
  | string s => ⟨0, 0, s.utf8ByteSize⟩
  | array items => extentItems items
  | map _ values => extentEntries values
  | _ => ⟨0, 0, 0⟩

/-- The extent of the items of an array. -/
def extentItems : List Value → Extent
  | [] => ⟨0, 0, 0⟩
  | v :: vs => v.extent + ⟨1, 0, 0⟩ + extentItems vs

/-- The extent of the entries of a map. -/
def extentEntries : List Value → Extent
  | [] => ⟨0, 0, 0⟩
  | v :: vs => v.extent + ⟨0, 1, 0⟩ + extentEntries vs

end

/-- What the caller of a script gets: numbers widened, other elements as NaN. -/
def toReading : Value → Reading
  | int n => .number (FloatMath.ofInt n)
  | float x => .number x
  | array items => .array (items.map fun v => v.toFloat?.getD FloatMath.nan)
  | map keys values =>
    .object ((NameMap.zip keys values).entries.map fun e => (e.1, e.2.toFloat?.getD FloatMath.nan))
  | v => .unsupported v.resultName

end Value

end Script

end DerivedSignal
