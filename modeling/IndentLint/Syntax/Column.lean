import IndentLint.Syntax.Cursor
import IndentLint.Text.Lines

/-!
# Columns found by walking back

The column of an element is one more than the number of characters between it and the line feed before it.  The
walk goes back token by token and never looks at the whole text.  It ends at the first line feed, at the start of
the tree, and also at an empty node, which has no last token to go on from.
-/

namespace IndentLint

/-- A walk back that has counted `column` so far. -/
inductive WalkBack where
  /-- It goes on to the token before. -/
  | running (column : Nat)
  /-- It has met a line feed or an empty node. -/
  | ended (column : Nat)
deriving DecidableEq, Repr

namespace WalkBack

/-- The column counted so far. -/
def column : WalkBack → Nat
  | running n => n
  | ended n => n

/-- Goes on with `f` unless the walk has ended. -/
def andThen (w : WalkBack) (f : Nat → WalkBack) : WalkBack :=
  match w with
  | running n => f n
  | ended n => ended n

end WalkBack

namespace Element

mutual

/-- Walks back over an element, having counted `column` already. -/
def walkBack (column : Nat) : Element → WalkBack
  | token _ text =>
    if text.contains '\n' then
      .ended (column + (Text.lastLine text).length)
    else
      .running (column + text.length)
  | node _ [] => .ended column
  | node _ (e :: es) => walkBackOverList column (e :: es)

/-- Walks back over several elements, the last one first. -/
def walkBackOverList (column : Nat) : List Element → WalkBack
  | [] => .running column
  | e :: es => (walkBackOverList column es).andThen fun n => walkBack n e

end

end Element

namespace Cursor

/-- Walks back over elements that are listed nearest first. -/
def walkBackOverSiblings (w : WalkBack) (before : List Element) : WalkBack :=
  before.foldl (fun w e => w.andThen e.walkBack) w

/-- The column at which the element starts, counted from 1 in characters. -/
def startColumn (c : Cursor) : Nat :=
  (c.frames.foldl (fun w f => walkBackOverSiblings w f.before) (.running 1)).column

end Cursor

end IndentLint
