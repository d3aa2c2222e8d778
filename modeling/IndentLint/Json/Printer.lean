import IndentLint.Json.Value

/-!
# Writing JSON

Only quotes, backslashes and control characters below the space are escaped.  The indented form puts every item
and member on a line of its own, two spaces deeper than what holds it; an empty array or object stays on one line.
-/

namespace IndentLint.Json

/-- A hexadecimal digit in lower case. -/
def hexChar (n : Nat) : Char :=
  "0123456789abcdef".toList.getD n '0'

/-- A character inside a string literal. -/
def escapeChar (c : Char) : List Char :=
  if c = '"' then ['\\', '"']
  else if c = '\\' then ['\\', '\\']
  else if c = '\x08' then ['\\', 'b']
  else if c = '\t' then ['\\', 't']
  else if c = '\n' then ['\\', 'n']
  else if c = '\x0c' then ['\\', 'f']
  else if c = '\r' then ['\\', 'r']
  else if c.toNat < 0x20 then ['\\', 'u', '0', '0', hexChar (c.toNat / 16), hexChar (c.toNat % 16)]
  else [c]

/-- A string literal. -/
def quote (text : String) : List Char :=
  '"' :: (text.toList.flatMap escapeChar ++ ['"'])

mutual

/-- A value without blanks. -/
def compact : Json → List Char
  | null => "null".toList
  | bool true => "true".toList
  | bool false => "false".toList
  | number literal => literal
  | string text => quote text
  | unpaired => quote ""
  | array items => '[' :: (compactItems items ++ [']'])
  | object members => '\x7b' :: (compactMembers members ++ ['\x7d'])

/-- The items of an array with commas between them. -/
def compactItems : List Json → List Char
  | [] => []
  | item :: items => compact item ++ compactMoreItems items

/-- Further items of an array, each after a comma. -/
def compactMoreItems : List Json → List Char
  | [] => []
  | item :: items => ',' :: (compact item ++ compactMoreItems items)

/-- The members of an object with commas between them. -/
def compactMembers : List (String × Json) → List Char
  | [] => []
  | (name, value) :: members => quote name ++ ':' :: (compact value ++ compactMoreMembers members)

/-- Further members of an object, each after a comma. -/
def compactMoreMembers : List (String × Json) → List Char
  | [] => []
  | (name, value) :: members => ',' :: (quote name ++ ':' :: (compact value ++ compactMoreMembers members))

end

/-- A line break and the blanks of a depth. -/
def newline (depth : Nat) : List Char :=
  '\n' :: List.replicate (2 * depth) ' '

mutual

/-- A value in indented form, inside `depth` arrays and objects. -/
def indented (depth : Nat) : Json → List Char
  | array (item :: items) =>
    '[' :: (newline (depth + 1) ++ indented (depth + 1) item ++ indentedItems (depth + 1) items ++ newline depth ++
      [']'])
  | object ((name, value) :: members) =>
    '\x7b' :: (newline (depth + 1) ++ quote name ++ ": ".toList ++ indented (depth + 1) value ++
      indentedMembers (depth + 1) members ++ newline depth ++ ['\x7d'])
  | value => compact value

/-- Further items of an array, each after a comma on a line of its own. -/
def indentedItems (depth : Nat) : List Json → List Char
  | [] => []
  | item :: items => ',' :: (newline depth ++ indented depth item ++ indentedItems depth items)

/-- Further members of an object, each after a comma on a line of its own. -/
def indentedMembers (depth : Nat) : List (String × Json) → List Char
  | [] => []
  | (name, value) :: members =>
    ',' :: (newline depth ++ quote name ++ ": ".toList ++ indented depth value ++ indentedMembers depth members)

end

/-- A value as one line of text. -/
def toLine (value : Json) : String :=
  String.ofList value.compact

/-- A value as text of many lines. -/
def toText (value : Json) : String :=
  String.ofList (value.indented 0)

end IndentLint.Json
