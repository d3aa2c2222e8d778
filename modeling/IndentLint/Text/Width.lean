import IndentLint.Text.Width.Ranges

/-!
# The width of text on a terminal

A character takes two columns if it is wide, none if it is a control character or is not shown on its own, and one
otherwise.  A tab reaches to the next multiple of `tabWidth`, and an escape sequence, from the escape character
to the letter `m`, takes no column at all.
-/

namespace IndentLint.Text

/-- Whether a code point lies in one of some ranges. -/
def liesIn (ranges : List (Nat × Nat)) (n : Nat) : Bool :=
  ranges.any fun r => r.1 ≤ n && n ≤ r.2

/-- Whether a character controls the terminal instead of being shown. -/
def isControl (c : Char) : Bool :=
  c.toNat < 0x20 || (0x7F ≤ c.toNat && c.toNat < 0xA0)

/-- The number of columns that a character takes; the Khmer sign U+17D8 looks like three letters. -/
def charWidth (c : Char) : Nat :=
  if isControl c || liesIn invisibleRanges c.toNat then 0
  else if liesIn wideRanges c.toNat then 2
  else if c = '\u17d8' then 3
  else 1

/-- The distance of tab stops. -/
def tabWidth : Nat :=
  4

/-- Where the next character of a line is put. -/
structure Pen where
  column : Nat
  /-- Whether an escape sequence has begun and not ended. -/
  inEscape : Bool
deriving DecidableEq, Repr

namespace Pen

/-- The start of a line. -/
def atStart : Pen :=
  ⟨0, false⟩

/-- The number of columns that a character takes at this place. -/
def width (p : Pen) (c : Char) : Nat :=
  if p.inEscape || c == '\x1b' then 0
  else if c == '\t' then tabWidth - p.column % tabWidth
  else charWidth c

/-- The place behind a character. -/
def advance (p : Pen) (c : Char) : Pen :=
  ⟨p.column + p.width c, if p.inEscape then c != 'm' else c == '\x1b'⟩

/-- The characters of a line from here on, its tabs replaced by as many blanks as they take columns. -/
def expandTabs (p : Pen) : List Char → List Char
  | [] => []
  | c :: cs => (if c == '\t' then List.replicate (p.width c) ' ' else [c]) ++ expandTabs (p.advance c) cs

end Pen

/-- A line with blanks in place of its tabs. -/
def expandTabs (line : List Char) : List Char :=
  Pen.atStart.expandTabs line

/-- The number of columns that a line takes. -/
def displayWidth (line : List Char) : Nat :=
  (line.foldl Pen.advance .atStart).column

end IndentLint.Text
