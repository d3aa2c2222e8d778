/-!
# JSON values

Numbers are kept as they are written, so that whole numbers, fractions and powers of ten stay apart.  Objects keep
the order of their members and every duplicate among them.
-/

namespace IndentLint

/-- A JSON value. -/
inductive Json where
  | null
  | bool (value : Bool)
  /-- A number by its literal. -/
  | number (literal : List Char)
  | string (text : String)
  /-- A string, or an object with a name, that holds half of a surrogate pair and so stands for no text. -/
  | unpaired
  | array (items : List Json)
  | object (members : List (String × Json))
deriving Inhabited, Repr

namespace Json

/-- A natural number. -/
def ofNat (n : Nat) : Json :=
  number (Nat.toDigits 10 n)

/-- A whole number. -/
def ofInt (n : Int) : Json :=
  if n < 0 then number ('-' :: Nat.toDigits 10 n.natAbs) else ofNat n.natAbs

/-- The object of some members, of which each name has to have a text. -/
def ofMembers (members : List (Option String × Json)) : Json :=
  match members.mapM fun m => m.1.map fun name => (name, m.2) with
  | none => unpaired
  | some named => object named

/-- The value of a member of an object, the first of that name. -/
def get? (name : String) : Json → Option Json
  | object members => members.lookup name
  | _ => none

end Json

end IndentLint
