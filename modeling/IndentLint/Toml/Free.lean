import IndentLint.Toml.Value

/-!
# Values of any type

Where a value of any type may stand, a table that begins with a reserved key is the date and time that the string
under this key writes; what else the table holds does not count.  The other way round, where a table is wanted, a date
and time is the table with that key alone.
-/

namespace IndentLint.Toml

/-- The reserved key. -/
def dateTimeKey : String :=
  "$__toml_private_datetime"

/-- The text of a string. -/
def Value.text? : Value → Option String
  | .string text => some text
  | _ => none

/-- The date and time that a string writes. -/
def Value.dateTime? (v : Value) : Option DateTime :=
  v.text?.bind DateTime.ofText?

/-- The table that a value is where one is wanted. -/
def Value.table? : Value → Option Table
  | .table entries => some entries
  | .datetime d => some [(dateTimeKey, .string d.text)]
  | _ => none

mutual

/-- The value that is meant where any value may stand. -/
def Value.free? : Value → Option Value
  | .array items => (freeItems? items).map .array
  | .table entries =>
    match entries.head? with
    | none => some (.table [])
    | some (key, v) =>
      if key = dateTimeKey then v.dateTime?.map .datetime else (freeEntries? entries).map .table
  | v => some v

/-- The values that are meant by the items of an array. -/
def freeItems? : List Value → Option (List Value)
  | [] => some []
  | v :: rest =>
    match v.free?, freeItems? rest with
    | some v, some rest => some (v :: rest)
    | _, _ => none

/-- The values that are meant under the keys of a table. -/
def freeEntries? : List (String × Value) → Option Table
  | [] => some []
  | (key, v) :: rest =>
    match v.free?, freeEntries? rest with
    | some v, some rest => some ((key, v) :: rest)
    | _, _ => none

end

end IndentLint.Toml
