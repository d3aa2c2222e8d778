import IndentLint.Json.Token
import IndentLint.Json.Value

/-!
# Reading JSON

The value of a whole text: no comma is missing or left over, and nothing follows the value.
-/

namespace IndentLint.Json

open JsonToken (scanAll)

mutual

/-- Reads one value in at most `fuel` steps. -/
def readValue : Nat → List JsonToken → Option (Json × List JsonToken)
  | 0, _ => none
  | _ + 1, .null :: rest => some (null, rest)
  | _ + 1, .bool b :: rest => some (bool b, rest)
  | _ + 1, .number literal :: rest => some (number literal, rest)
  | _ + 1, .string (some text) :: rest => some (string text, rest)
  | _ + 1, .string none :: rest => some (unpaired, rest)
  | _ + 1, .openArray :: .closeArray :: rest => some (array [], rest)
  | fuel + 1, .openArray :: rest => (readItems fuel rest).map fun (items, rest) => (array items, rest)
  | _ + 1, .openObject :: .closeObject :: rest => some (object [], rest)
  | fuel + 1, .openObject :: rest => (readMembers fuel rest).map fun (members, rest) => (ofMembers members, rest)
  | _ + 1, _ => none

/-- Reads the items of an array, at least one, and the bracket after them. -/
def readItems : Nat → List JsonToken → Option (List Json × List JsonToken)
  | 0, _ => none
  | fuel + 1, ts =>
    match readValue fuel ts with
    | some (item, .comma :: rest) => (readItems fuel rest).map fun (items, rest) => (item :: items, rest)
    | some (item, .closeArray :: rest) => some ([item], rest)
    | _ => none

/-- Reads the members of an object, at least one, and the brace after them; a name may have no text. -/
def readMembers : Nat → List JsonToken → Option (List (Option String × Json) × List JsonToken)
  | fuel + 1, .string name :: .colon :: ts =>
    match readValue fuel ts with
    | some (value, .comma :: rest) =>
      (readMembers fuel rest).map fun (members, rest) => ((name, value) :: members, rest)
    | some (value, .closeObject :: rest) => some ([(name, value)], rest)
    | _ => none
  | _, _ => none

end

/-- The value that a text writes. -/
def read? (text : List Char) : Option Json := do
  let ts ← scanAll text
  match ← readValue (2 * ts.length + 1) ts with
  | (value, []) => return value
  | _ => none

end IndentLint.Json
