namespace DerivedSignal

namespace Toml

/-- A value. Floats, dates and times are kept as they are written. -/
inductive Value where
  | string (text : String)
  | integer (n : Int)
  | float (literal : String)
  | boolean (b : Bool)
  | moment (literal : String)
  | array (items : List Value)
  | table (members : List (String × Value))
  deriving Repr

end Toml

end DerivedSignal
