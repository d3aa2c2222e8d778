import IndentLint.Report.Violation
import IndentLint.Text.Lines
import IndentLint.Text.Width

/-!
# Violations shown in their source

A snippet names the violation, shows its line between the line before and the line after it, and underlines the
place.  A carriage return that no line feed follows also ends a line where lines are counted and chosen, but the
chosen text is shown as one line across it.
-/

namespace IndentLint

/-- A line as it is shown. -/
structure ShownLine where
  number : Nat
  /-- The byte at which it starts. -/
  start : Nat
  /-- The byte behind it and its line break. -/
  stop : Nat
  /-- The text without the line break. -/
  text : List Char
deriving DecidableEq, Repr

namespace Text

/-- The rows of a text with their line breaks, after the reversed beginning `row` of the first; a break is a line
feed, a carriage return, or the two together. -/
def rowsFrom (row : List Char) : List Char → List (List Char)
  | [] => if row.isEmpty then [] else [row.reverse]
  | '\r' :: '\n' :: cs => ('\n' :: '\r' :: row).reverse :: rowsFrom [] cs
  | c :: cs =>
    if c == '\n' || c == '\r' then (c :: row).reverse :: rowsFrom [] cs else rowsFrom (c :: row) cs

/-- The rows of a text with their line breaks. -/
def rows (cs : List Char) : List (List Char) :=
  rowsFrom [] cs

/-- Whether a row ends with a line break. -/
def isBroken (row : List Char) : Bool :=
  row.getLast? = some '\n' || row.getLast? = some '\r'

/-- The rows that end with a line break at or before the byte that lies `n` bytes further. -/
def rowsBefore : List (List Char) → Nat → List (List Char)
  | [], _ => []
  | row :: rest, n =>
    if isBroken row && byteLength row ≤ n then row :: rowsBefore rest (n - byteLength row) else []

end Text

namespace ShownLine

/-- The lines to show of a text that begins at byte `start` and is given by its pieces between line feeds, when
`count` lines come before it.

Nothing is shown after a line feed at the end; a text that breaks off after a carriage return does not count its
last line. -/
def ofPieces (count start : Nat) : List (List Char) → List ShownLine
  | [] => []
  | [last] =>
    if last.isEmpty then []
    else [⟨if last.getLast? = some '\r' then count else count + 1, start, start + Text.byteLength last, last⟩]
  | piece :: rest =>
    let stop := start + Text.byteLength piece + 1
    ⟨count + 1, start, stop, Text.dropCarriageReturn piece⟩ :: ofPieces (count + 1) stop rest

/-- The lines to show around byte `offset` of a text: the row before it, its own row, and the one after. -/
def around (text : List Char) (offset : Nat) : List ShownLine :=
  let rows := Text.rows text
  let before := Text.rowsBefore rows offset
  let count := before.length - 1
  let shown := (rows.drop count).take (before.length - count + 2)
  ofPieces count (Text.byteLength (rows.take count).flatten) (Text.lines shown.flatten)

/-- The number of columns in front of byte `offset`. -/
def columnOf (l : ShownLine) (offset : Nat) : Nat :=
  Text.displayWidth ((Text.slice? l.text 0 (offset - l.start)).getD l.text)

end ShownLine

/-- An underline: its first column, the column of its label, and the column behind it. -/
structure Underline where
  first : Nat
  middle : Nat
  stop : Nat
deriving DecidableEq, Repr

namespace Underline

/-- The underline of the bytes of a line from `offset` on; a place without bytes takes one column. -/
def of (line : ShownLine) (offset length : Nat) : Underline :=
  let first := line.columnOf offset
  let stop := if length = 0 then first + 1 else max (line.columnOf (offset + length)) (first + 1)
  ⟨first, (first + stop) / 2, stop⟩

/-- The underline with a mark in its middle. -/
def marks (u : Underline) (mark : Char) : List Char :=
  List.replicate u.first ' ' ++ List.replicate (u.middle - u.first) '^' ++
    mark :: List.replicate (u.stop - u.middle - 1) '^'

/-- The label with its hook under the middle. -/
def label (u : Underline) (text : String) : List Char :=
  List.replicate u.middle ' ' ++ '\x60' :: '-' :: '-' :: ' ' :: text.toList

end Underline

namespace Violation

/-- The position of a violation in its source, rows being counted, and bytes in a row. -/
def rowPosition (v : Violation) (text : List Char) : Position :=
  let before := Text.rowsBefore (Text.rows text) v.location.offset
  ⟨before.length + 1, v.location.offset - Text.byteLength before.flatten + 1⟩

/-- The lines under a shown line, which mark the violation if it starts there. -/
def markLines (v : Violation) (margin : List Char) (line : ShownLine) : List (List Char) :=
  if line.start ≤ v.location.offset && v.location.offset < line.stop then
    let u := Underline.of line v.location.offset v.location.length
    let mark := if v.location.length = 0 then '^' else '|'
    [margin ++ ':' :: ' ' :: u.marks mark, margin ++ ':' :: ' ' :: u.label v.rule]
  else
    []

/-- The violation shown in its source. -/
def snippet (v : Violation) (text : List Char) : String :=
  let lines := ShownLine.around text v.location.offset
  let digits := (lines.getLast?.map fun l => (toString l.number).length).getD 0
  let margin := List.replicate (digits + 2) ' '
  let position := v.rowPosition text
  let shown := fun (l : ShownLine) =>
    let number := (toString l.number).toList
    (' ' :: List.replicate (digits - number.length) ' ' ++ number ++ [' ', '|', ' '] ++ Text.expandTabs l.text) ::
      v.markLines margin l
  let place := s!",-[{v.location.file.text}:{position.line}:{position.column}]"
  let all := s!"  x {v.headline}".toList :: (margin ++ place.toList) :: lines.flatMap shown ++
    [margin ++ ['\x60', '-', '-', '-', '-']]
  String.ofList (all.flatMap fun line => line ++ ['\n'])

end Violation

end IndentLint
