import IndentLint.Syntax.Tree
import IndentLint.Text.Runs

/-!
# Text without structure

Text of which nothing is known becomes tokens: its runs of blanks are whitespace, all other runs plain tokens.
-/

namespace IndentLint.Element

/-- The token of a run. -/
def ofRun (run : List Char) : Element :=
  token (if run.all Text.isBlank then .whitespace else .token) run

/-- The tokens of a text without structure. -/
def gap (cs : List Char) : List Element :=
  (Text.runs cs).map ofRun

end IndentLint.Element
