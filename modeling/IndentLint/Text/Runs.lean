import IndentLint.Text.Blank

/-!
# Runs of blanks and of other characters

A text falls into runs that are as long as possible, each of blanks only or of other characters only.
-/

namespace IndentLint.Text

/-- The runs of a text in order; none of them is empty. -/
def runs (cs : List Char) : List (List Char) :=
  cs.splitBy fun a b => isBlank a == isBlank b

end IndentLint.Text
