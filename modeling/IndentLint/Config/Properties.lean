/-!
# Properties of a file

The settings that apply to one file: text values under keys whose case does not matter.  A later value for a key
takes the place of an earlier one.
-/

namespace IndentLint

/-- Settings by key; keys are in lower case and each occurs once. -/
structure Properties where
  entries : List (String × String)
deriving DecidableEq, Repr

namespace Properties

/-- No settings. -/
def empty : Properties :=
  ⟨[]⟩

/-- Sets the value of a key in any case. -/
def insert (p : Properties) (key value : String) : Properties :=
  ⟨(key.toLower, value) :: p.entries.filter (·.1 != key.toLower)⟩

/-- The value of a key in any case. -/
def get? (p : Properties) (key : String) : Option String :=
  p.entries.lookup key.toLower

/-- Sets every value of `q` over those of `p`. -/
def extend (p q : Properties) : Properties :=
  q.entries.foldr (fun e r => r.insert e.1 e.2) p

/-- Whether nothing is set. -/
def isEmpty (p : Properties) : Bool :=
  p.entries.isEmpty

/-- The settings that a list of pairs makes, later pairs winning. -/
def ofList (pairs : List (String × String)) : Properties :=
  pairs.foldl (fun p e => p.insert e.1 e.2) empty

end Properties

end IndentLint
