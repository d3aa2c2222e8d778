import IndentLint.Layout.Anchor
import IndentLint.Layout.Context
import IndentLint.Layout.Unit
import IndentLint.Syntax.Column

/-!
# Checking whitespace

Every line that a whitespace token begins is measured from the baseline of the token, and the distance has to be a
multiple of the unit that applies.  Inside a parameter list a line may instead stand under the first parameter.
Lines without indentation are left alone, and so is whitespace inside a comment.
-/

namespace IndentLint

/-- A complaint about one place of a file. -/
structure Finding where
  /-- The byte it points at. -/
  offset : Nat
  message : String
  /-- Whether it could be mended without a human. -/
  correctable : Bool
deriving DecidableEq, Repr

/-- The indentation of one line, and the byte at which it starts. -/
structure IndentedLine where
  offset : Nat
  indentation : List Char
deriving DecidableEq, Repr

/-- Why lines cannot be measured. -/
inductive MeasureError where
  /-- The unit that applies is no columns wide. -/
  | zeroUnit
deriving DecidableEq, Repr

namespace IndentedLine

/-- The length of the indentation in characters. -/
def length (line : IndentedLine) : Nat :=
  line.indentation.length

/-- The lines that `pieces` are, the first of them starting at byte `offset`, one line feed between any two. -/
def ofPieces (offset : Nat) : List (List Char) → List IndentedLine
  | [] => []
  | piece :: rest => ⟨offset, Text.dropCarriageReturn piece⟩ :: ofPieces (offset + Text.byteLength piece + 1) rest

/-- The lines that a text at byte `start` begins: one for each of its line feeds. -/
def ofText (start : Nat) (text : List Char) : List IndentedLine :=
  (ofPieces start (Text.lines text)).drop 1

end IndentedLine

namespace Units

/-- The unit that applies to whitespace; where both units are the same its context does not matter. -/
def required (units : Units) (c : Cursor) : Nat :=
  if units.continuation = units.block || c.context.isContinuation then units.continuation else units.block

end Units

namespace Cursor

/-- The column of the first parameter of the nearest parameter list around the element. -/
def firstParameterColumn? (c : Cursor) : Option Nat := do
  let list ← c.ancestors.find? (·.kind == .parameterList)
  let parameter ← list.children.find? fun d => d.element.isNode && d.kind == .parameter
  let first ← parameter.firstToken?
  return first.startColumn

/-- The lines that are measured: those with indentation, in whitespace outside comments. -/
def measuredLines (c : Cursor) : List IndentedLine :=
  if c.element.isMultilineWhitespace && !c.inComment then
    (IndentedLine.ofText c.start c.element.text).filter (!·.indentation.isEmpty)
  else
    []

/-- Whether an indentation of `n` characters is a multiple of `unit` away from the baseline. -/
def fits (c : Cursor) (unit n : Nat) : Bool :=
  ((n - c.baseline) + (c.baseline - n)) % unit == 0

/-- Whether an indentation of `n` characters puts a line under the first parameter. -/
def alignsWithParameter (c : Cursor) (n : Nat) : Bool :=
  c.firstParameterColumn?.any fun column => column - 1 == n

end Cursor

/-- The complaint about a line of `n` characters of indentation that fits no multiple of `unit`. -/
def unitMessage (n unit : Nat) : String :=
  s!"Unexpected indentation ({n}) (it should be {unit})"

/-- The complaint about a line of `n` characters of indentation inside a parameter list. -/
def parameterMessage (n block : Nat) : String :=
  s!"Unexpected indentation ({n}) (parameters should be either vertically aligned or indented by the multiple of {block})"

namespace Cursor

/-- The complaint about a line of `n` characters of indentation. -/
def message (c : Cursor) (units : Units) (n : Nat) : String :=
  if c.firstParameterColumn?.isSome then parameterMessage n units.block else unitMessage n (units.required c)

/-- The complaints about the lines that the element begins. -/
def findings (units : Units) (c : Cursor) : List Finding :=
  (c.measuredLines.filter fun line => !c.fits (units.required c) line.length && !c.alignsWithParameter line.length).map
    fun line => ⟨line.offset, c.message units line.length, false⟩

/-- The complaints about the lines that the element begins, or why they cannot be measured. -/
def check (units : Units) (c : Cursor) : Except MeasureError (List Finding) :=
  if units.required c = 0 && !c.measuredLines.isEmpty then .error .zeroUnit else .ok (c.findings units)

end Cursor

namespace Element

/-- The whitespace tokens of a tree in their places, in document order. -/
def whitespace (root : Element) : List Cursor :=
  root.tokens.filter (·.kind == .whitespace)

/-- The complaints about all whitespace of a tree, or why its lines cannot be measured. -/
def check (units : Units) (root : Element) : Except MeasureError (List Finding) :=
  (root.whitespace.mapM (Cursor.check units)).map List.flatten

end Element

end IndentLint
