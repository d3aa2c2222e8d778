import IndentLint.Decimal.Binary64
import IndentLint.Toml.DateTime

/-!
# TOML values

The values of a TOML document.  A table lists its keys in the order in which they first come, each key once.
-/

namespace IndentLint.Toml

/-- A TOML value. -/
inductive Value where
  | string (text : String)
  | integer (n : Int)
  | float (x : Binary64)
  | boolean (b : Bool)
  | datetime (d : DateTime)
  | array (items : List Value)
  | table (entries : List (String × Value))
deriving Inhabited, Repr

/-- The keys of a table and their values. -/
abbrev Table : Type :=
  List (String × Value)

end IndentLint.Toml
