import IndentLint.Toml.Node
import IndentLint.Toml.Number

/-!
# TOML documents

A document is a row of statements, one on a line: a key with its value, the header of a table, or the header of one
more table of an array.  The keys after a header belong to its table.  Every key is given once, and arrays and
inline tables are nested less than eighty deep.
-/

namespace IndentLint.Toml

/-- The depth that arrays and inline tables stay below. -/
def depthLimit : Nat :=
  80

/-- The inline table that a row of keys and values makes. -/
def inlineTable? (pairs : List (List String × Value)) : Option Value := do
  let entries ← pairs.foldlM (fun (es : Entries) p => do
    let key ← p.1.getLast?
    es.insert p.1.dropLast key p.2) []
  return .table (valuesOfEntries entries)

mutual

/-- Reads a value in at most `fuel` steps, inside `depth` arrays and inline tables. -/
def readValue : Nat → Nat → List Char → Option (Value × List Char)
  | 0, _, _ => none
  | fuel + 1, depth, cs =>
    match cs with
    | '"' :: _ => (scanText? cs).map fun (text, rest) => (.string text, rest)
    | '\'' :: _ => (scanText? cs).map fun (text, rest) => (.string text, rest)
    | '[' :: rest =>
      if depth + 1 < depthLimit then
        (readItems fuel (depth + 1) rest).map fun (items, rest) => (.array items, rest)
      else none
    | '\x7b' :: rest =>
      if depth + 1 < depthLimit then
        match skipSpaces rest with
        | '\x7d' :: rest => some (.table [], rest)
        | rest =>
          match readPairs fuel (depth + 1) rest with
          | none => none
          | some (pairs, rest) => (inlineTable? pairs).map fun v => (v, rest)
      else none
    | 't' :: 'r' :: 'u' :: 'e' :: rest => some (.boolean true, rest)
    | 'f' :: 'a' :: 'l' :: 's' :: 'e' :: rest => some (.boolean false, rest)
    | _ => scanNumber? cs

/-- Reads the items of an array and the bracket after them; a comma may follow the last one. -/
def readItems : Nat → Nat → List Char → Option (List Value × List Char)
  | 0, _, _ => none
  | fuel + 1, depth, cs =>
    match skipLines? false cs with
    | none => none
    | some (']' :: rest) => some ([], rest)
    | some cs =>
      match readValue fuel depth cs with
      | none => none
      | some (item, rest) =>
        match skipLines? false rest with
        | some (',' :: rest) => (readItems fuel depth rest).map fun (items, rest) => (item :: items, rest)
        | some (']' :: rest) => some ([item], rest)
        | _ => none

/-- Reads the keys and values of an inline table, at least one, and the brace after them. -/
def readPairs : Nat → Nat → List Char → Option (List (List String × Value) × List Char)
  | 0, _, _ => none
  | fuel + 1, depth, cs =>
    match scanKey? cs with
    | some (path, '=' :: rest) =>
      match readValue fuel depth (skipSpaces rest) with
      | none => none
      | some (value, rest) =>
        match skipSpaces rest with
        | ',' :: rest => (readPairs fuel depth rest).map fun (pairs, rest) => ((path, value) :: pairs, rest)
        | '\x7d' :: rest => some ([(path, value)], rest)
        | _ => none
    | _ => none

end

/-- A statement of a document. -/
inductive Statement where
  | pair (path : List String) (value : Value)
  | header (path : List String)
  | itemHeader (path : List String)

/-- What follows the end of a line, before which blanks and a comment may stand. -/
def afterLine? (cs : List Char) : Option (List Char) :=
  let cs := match skipSpaces cs with
    | '#' :: rest => rest.dropWhile isContent
    | rest => rest
  if cs.isEmpty then some [] else afterLineBreak? cs

/-- Reads one statement up to the end of its line. -/
def readStatement (cs : List Char) : Option (Statement × List Char) :=
  match cs with
  | '[' :: '[' :: rest =>
    match scanKey? rest with
    | some (path, ']' :: ']' :: rest) => (afterLine? rest).map fun rest => (.itemHeader path, rest)
    | _ => none
  | '[' :: rest =>
    match scanKey? rest with
    | some (path, ']' :: rest) => (afterLine? rest).map fun rest => (.header path, rest)
    | _ => none
  | _ =>
    match scanKey? cs with
    | some (path, '=' :: rest) => do
      let (value, rest) ← readValue (2 * rest.length + 1) 0 (skipSpaces rest)
      let rest ← afterLine? rest
      return (.pair path value, rest)
    | _ => none

/-- Reads the statements of a document in at most `fuel` lines. -/
def readStatements : Nat → List Char → Option (List Statement)
  | 0, _ => none
  | fuel + 1, cs =>
    match skipSpaces cs with
    | [] => some []
    | c :: rest =>
      if c = '#' ∨ c = '\n' ∨ c = '\r' then
        match afterLine? (c :: rest) with
        | none => none
        | some rest => readStatements fuel rest
      else
        match readStatement (c :: rest) with
        | none => none
        | some (s, rest) => (readStatements fuel rest).map (s :: ·)

/-- A document as far as it is read: what was finished, and the table of the last header. -/
structure Draft where
  root : Entries
  /-- The path of the last header, empty before the first. -/
  path : List String
  /-- Whether that header adds to an array. -/
  isItem : Bool
  current : Entries

namespace Draft

/-- Before the first statement. -/
def empty : Draft :=
  ⟨[], [], false, []⟩

/-- Puts the table of the last header in its place. -/
def finished (d : Draft) : Option Entries :=
  match d.path.getLast? with
  | none => some d.current
  | some key =>
    let place := fun (_ : Origin) (es : Entries) =>
      match es.lookup key, d.isItem with
      | none, false => some (es.set key (.table .explicit d.current))
      | none, true => some (es.set key (.tables [d.current]))
      | some (.tables items), true => some (es.set key (.tables (d.current :: items)))
      | _, _ => none
    Entries.update false place .explicit d.root d.path.dropLast

/-- The table that stands under a path and is only implied yet. -/
def implied (root : Entries) : List String → Entries
  | [] => []
  | key :: path =>
    match root.lookup key with
    | some (.table .implied entries) => if path.isEmpty then entries else implied entries path
    | some (.table _ entries) => implied entries path
    | some (.tables (newest :: _)) => implied newest path
    | _ => []

/-- Starts the table of a header; a table that is only implied goes on, any other must not exist. -/
def startTable (root : Entries) (path : List String) : Option Draft := do
  let key ← path.getLast?
  let take := fun (_ : Origin) (es : Entries) =>
    match es.lookup key with
    | none => some es
    | some (.table .implied _) => some (es.erase key)
    | _ => none
  let rest ← Entries.update false take .explicit root path.dropLast
  return ⟨rest, path, false, implied root path⟩

/-- Starts one more table of an array; the key must not stand for anything else. -/
def startItem (root : Entries) (path : List String) : Option Draft := do
  let key ← path.getLast?
  let check := fun (_ : Origin) (es : Entries) =>
    match es.lookup key with
    | none => some es
    | some (.tables _) => some es
    | _ => none
  let rest ← Entries.update false check .explicit root path.dropLast
  return ⟨rest, path, true, []⟩

/-- Adds a statement. -/
def add (d : Draft) : Statement → Option Draft
  | .pair path value => do
    let key ← path.getLast?
    let current ← d.current.insert path.dropLast key value
    return { d with current }
  | .header path => d.finished.bind (startTable · path)
  | .itemHeader path => d.finished.bind (startItem · path)

end Draft

/-- The table of a document; `none` where the text is no document.  A byte order mark in front does not count. -/
def parse? (text : String) : Option Table := do
  let cs := match text.toList with
    | '\ufeff' :: rest => rest
    | cs => cs
  let statements ← readStatements (cs.length + 1) cs
  let draft ← statements.foldlM Draft.add .empty
  let entries ← draft.finished
  return valuesOfEntries entries

end IndentLint.Toml
