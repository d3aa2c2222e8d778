/-!
# Text in pieces

A separator cuts a text into pieces, one more than there are separators; joining the pieces with the separator
gives the text back.
-/

namespace IndentLint.Text

/-- The pieces of a text between the separators. -/
def pieces [DecidableEq α] (sep : α) : List α → List (List α)
  | [] => [[]]
  | c :: cs =>
    if c = sep then
      [] :: pieces sep cs
    else
      match pieces sep cs with
      | [] => [[c]]
      | piece :: rest => (c :: piece) :: rest

/-- The pieces in a row with one separator between any two. -/
def joinPieces (sep : Char) (ps : List (List Char)) : List Char :=
  [sep].intercalate ps

/-- Whether `part` occurs in `cs` as a contiguous part. -/
def containsPart (part : List Char) : List Char → Bool
  | [] => part.isEmpty
  | c :: cs => part.isPrefixOf (c :: cs) || containsPart part cs

end IndentLint.Text
