import IndentLint.Json.Value
import IndentLint.Text.Integer

/-!
# Looking into JSON values

Each function reads a value of one type and gives nothing for a value of another type.
-/

namespace IndentLint.Json

/-- A natural number of at most 64 bits, written without fraction and power of ten. -/
def natural64? : Json → Option Nat
  | number literal => (Text.natural? literal).filter (· < Nat.pow 2 64)
  | _ => none

/-- The text of a string. -/
def text? : Json → Option String
  | string text => some text
  | _ => none

/-- A truth value. -/
def flag? : Json → Option Bool
  | bool b => some b
  | _ => none

/-- The items of an array. -/
def items? : Json → Option (List Json)
  | array items => some items
  | _ => none

/-- The values of the named fields of a record, where present; no field may occur twice, and a row of values must
not be longer than the list of names. -/
def fields? (names : List String) : Json → Option (List (Option Json))
  | object members =>
    if names.all fun n => members.countP (·.1 == n) ≤ 1 then some (names.map fun n => members.lookup n) else none
  | array items =>
    if items.length ≤ names.length then some ((List.range names.length).map (items[·]?)) else none
  | _ => none

end IndentLint.Json
