import IndentLint.Toml.Value

/-!
# Tables in the making

A table of a document grows by headers and by dotted keys, and TOML restricts how the two may meet.  So every table
remembers how it came to be: written out by a header or as the whole document, implied by the header of a table
inside it, or made by a dotted key.
-/

namespace IndentLint.Toml

/-- How a table came to be. -/
inductive Origin where
  /-- It is the document or has a header. -/
  | explicit
  /-- The header of a table inside it names it. -/
  | implied
  /-- A dotted key names it. -/
  | dotted
deriving DecidableEq, Repr

/-- What stands under a key of a table that still grows. -/
inductive Node where
  /-- A finished value. -/
  | value (v : Value)
  | table (origin : Origin) (entries : List (String × Node))
  /-- A table for each of several headers in double brackets, the newest first. -/
  | tables (items : List (List (String × Node)))

/-- A table that still grows. -/
abbrev Entries : Type :=
  List (String × Node)

namespace Entries

/-- Puts a node under a key in place of what stood there. -/
def set (entries : Entries) (key : String) (node : Node) : Entries :=
  match entries with
  | [] => [(key, node)]
  | (k, n) :: rest => if k = key then (key, node) :: rest else (k, n) :: set rest key node

/-- Takes a key away. -/
def erase (entries : Entries) (key : String) : Entries :=
  entries.filter (·.1 != key)

/-- Changes the table at the end of a path by `f`, which also sees how that table came to be.

Tables missing on the way are made; of several tables under one key the newest is meant.  With `byKey` the path
comes from a dotted key, which cannot lead through a table that has a header. -/
def update (byKey : Bool) (f : Origin → Entries → Option Entries) (origin : Origin) (entries : Entries) :
    List String → Option Entries
  | [] => f origin entries
  | key :: path =>
    match entries.lookup key with
    | none => do
      let made := if byKey then Origin.dotted else .implied
      let inner ← update byKey f made [] path
      return entries.set key (.table made inner)
    | some (.value _) => none
    | some (.tables []) => none
    | some (.tables (newest :: older)) => do
      let inner ← update byKey f .explicit newest path
      return entries.set key (.tables (inner :: older))
    | some (.table o inner) => do
      guard (!(byKey && o == .explicit))
      let inner ← update byKey f o inner path
      return entries.set key (.table o inner)

/-- Puts a value under a dotted key, which must be new; its table has to be one made by dotted keys, if the key has
dots at all. -/
def insert (entries : Entries) (path : List String) (key : String) (value : Value) : Option Entries :=
  let put := fun (o : Origin) (es : Entries) =>
    if (o == .dotted) == path.isEmpty || (es.lookup key).isSome then none else some (es.set key (.value value))
  update true put .explicit entries path

end Entries

mutual

/-- The value that a node has become. -/
def Node.toValue : Node → Value
  | .value v => v
  | .table _ entries => .table (valuesOfEntries entries)
  | .tables items => .array (valuesOfTables items).reverse

/-- The values under the keys of a table. -/
def valuesOfEntries : List (String × Node) → Table
  | [] => []
  | (key, node) :: rest => (key, node.toValue) :: valuesOfEntries rest

/-- The values of several tables. -/
def valuesOfTables : List (List (String × Node)) → List Value
  | [] => []
  | entries :: rest => .table (valuesOfEntries entries) :: valuesOfTables rest

end

end IndentLint.Toml
