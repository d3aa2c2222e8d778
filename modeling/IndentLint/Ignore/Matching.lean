import IndentLint.Ignore.Pattern
import IndentLint.Text.Endings

/-!
# Matching patterns of ignore files

A pattern matches the bytes of a path when its tokens can take them all one after the other.  The answer is found for
all endings of the path at once, from the last token to the first.
-/

namespace IndentLint.IgnoreToken

/-- Whether a byte separates directories. -/
def isSeparator (b : UInt8) : Bool :=
  b == Text.byteOf '/'

/-- Whether a byte lies in one of some ranges. -/
def inRanges (b : UInt8) (ranges : List (UInt8 × UInt8)) : Bool :=
  ranges.any fun r => r.1 ≤ b && b ≤ r.2

mutual

/-- Which endings of a path begin with what a token takes and go on with a marked ending. -/
def marksBefore (path : List UInt8) (marks : List Bool) : IgnoreToken → List Bool
  | byte b => Text.afterOne (· == b) path marks
  | anyByte => Text.afterOne (!isSeparator ·) path marks
  | anyRun => Text.afterRun (!isSeparator ·) path marks
  | leadingDirectories => Text.either marks (Text.afterSome isSeparator path marks)
  | innerDirectories =>
    Text.afterOne isSeparator path (Text.either marks (Text.afterSome isSeparator path marks))
  | everythingBelow => Text.afterOne isSeparator path (Text.afterRun (fun _ => true) path marks)
  | within negated ranges => Text.afterOne (fun b => inRanges b ranges != negated) path marks
  | oneOf [] => marks
  | oneOf (branch :: rest) => Text.either (marksBeforeRow path marks branch) (marksBeforeAny path marks rest)

/-- Which endings of a path begin with what a row of tokens takes and go on with a marked ending. -/
def marksBeforeRow (path : List UInt8) (marks : List Bool) : List IgnoreToken → List Bool
  | [] => marks
  | t :: ts => marksBefore path (marksBeforeRow path marks ts) t

/-- Which endings of a path begin with what one of several rows takes and go on with a marked ending. -/
def marksBeforeAny (path : List UInt8) (marks : List Bool) : List (List IgnoreToken) → List Bool
  | [] => path.map (fun _ => false) ++ [false]
  | branch :: rest => Text.either (marksBeforeRow path marks branch) (marksBeforeAny path marks rest)

end

/-- Whether a row of tokens matches a whole path; `**` alone matches everything. -/
def matchesPath (tokens : List IgnoreToken) (path : List UInt8) : Bool :=
  match tokens with
  | [leadingDirectories] => true
  | _ => (marksBeforeRow path (Text.atEnd path) tokens).headD false

end IndentLint.IgnoreToken
