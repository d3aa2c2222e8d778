import IndentLint.Syntax.Cursor
import IndentLint.Text.Lines

/-!
# The baseline of a line

A line is measured from the indentation of what encloses it.  The anchor of an element is the nearest multi-line
whitespace among the earlier siblings of the nodes above it, and its last line gives the baseline.  The siblings of
the element itself never anchor it, so one misindented line does not shift those that follow it.
-/

namespace IndentLint

/-- Kinds that go on with the line before; whitespace just before one of them is no anchor. -/
def anchorSkip : List Kind :=
  [.typeReference, .superTypeList, .constructorDelegationCall]

namespace Cursor

/-- The column of the nearest anchor among the elements `before`, listed nearest first, the element of kind `next`
coming just after them. -/
def anchorAmong? (skip : List Kind) (next : Kind) : List Element → Option Nat
  | [] => none
  | e :: before =>
    if e.isMultilineWhitespace && !skip.contains next then
      some (Text.lastLineLength e.text)
    else
      anchorAmong? skip e.kind before

/-- The column of the nearest anchor before a node of kind `inner` or before a node above it. -/
def anchorAbove? (skip : List Kind) (inner : Kind) : List Frame → Option Nat
  | [] => none
  | f :: frames => (anchorAmong? skip inner f.before).or (anchorAbove? skip f.kind frames)

/-- The column of the anchor of an element, if anything anchors it. -/
def anchorColumn? (skip : List Kind) (c : Cursor) : Option Nat :=
  match c.frames with
  | [] => none
  | f :: frames => anchorAbove? skip f.kind frames

/-- The column from which the lines of whitespace are measured, 0 where nothing anchors it. -/
def baseline (c : Cursor) : Nat :=
  (c.anchorColumn? anchorSkip).getD 0

end Cursor

end IndentLint
