import IndentLint.Text.Bytes
import IndentLint.Text.Pieces

/-!
# Lines and positions

A line ends at a line feed; a carriage return before it belongs to the line but not to its indentation.
`LineIndex` turns byte offsets into line and column, both counted from 1, the column in characters.
-/

namespace IndentLint

namespace Text

/-- The pieces between line feeds; a text without a line feed is one piece. -/
def lines (cs : List Char) : List (List Char) :=
  pieces '\n' cs

/-- The characters after the last line feed. -/
def lastLine (cs : List Char) : List Char :=
  (cs.reverse.takeWhile (· != '\n')).reverse

/-- The number of characters after the last line feed, less the carriage returns at the end. -/
def lastLineLength (cs : List Char) : Nat :=
  (cs.reverse.takeWhile (· != '\n')).dropWhile (· == '\r') |>.length

/-- Drops one carriage return at the end, if there is one. -/
def dropCarriageReturn (line : List Char) : List Char :=
  if line.getLast? = some '\r' then line.dropLast else line

/-- The byte offsets just after each line feed, for a text that begins at byte `offset`. -/
def lineStartsFrom (offset : Nat) : List Char → List Nat
  | [] => []
  | c :: cs =>
    if c = '\n' then
      (offset + 1) :: lineStartsFrom (offset + 1) cs
    else
      lineStartsFrom (offset + c.utf8Size) cs

end Text

/-- A line and a column, both counted from 1. -/
structure Position where
  line : Nat
  column : Nat
deriving DecidableEq, Repr

/-- The byte offsets at which the lines of a text start, in increasing order. -/
structure LineIndex where
  starts : List Nat
deriving DecidableEq, Repr

namespace LineIndex

/-- The index of `text`: its first line starts at byte 0. -/
def ofText (text : List Char) : LineIndex :=
  ⟨0 :: Text.lineStartsFrom 0 text⟩

/-- The position of byte `offset` of `text`, an offset past the end standing for the end.

The column counts characters from the start of the line, or bytes where the line start or the offset is no
boundary of `text`. -/
def position (index : LineIndex) (text : List Char) (offset : Nat) : Position :=
  let offset := min offset (Text.byteLength text)
  let line := (index.starts.takeWhile (· ≤ offset)).length
  let start := index.starts.getD (line - 1) 0
  let before := match Text.slice? text start offset with
    | some cs => cs.length
    | none => offset - start
  ⟨line, before + 1⟩

end LineIndex

end IndentLint
