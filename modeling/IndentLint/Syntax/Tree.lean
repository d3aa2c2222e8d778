import IndentLint.Syntax.Kind
import IndentLint.Text.Bytes

/-!
# Syntax trees

A tree keeps every character of its source: the texts of its leaves, in document order, are the source.  So
whitespace and comments are leaves like any other, and the byte range of an element follows from the texts before
it.
-/

namespace IndentLint

/-- A token with its text, or a node with its children; any kind may stand on either. -/
inductive Element where
  | token (kind : Kind) (text : List Char)
  | node (kind : Kind) (children : List Element)
deriving Repr

/-- A leaf of a tree. -/
structure Leaf where
  kind : Kind
  text : List Char
deriving DecidableEq, Repr

namespace Element

/-- The kind of a token or node. -/
def kind : Element → Kind
  | token k _ => k
  | node k _ => k

/-- Whether the element is a node. -/
def isNode : Element → Bool
  | token .. => false
  | node .. => true

mutual

/-- The tokens of an element in document order. -/
def leaves : Element → List Leaf
  | token k text => [⟨k, text⟩]
  | node _ children => leavesOfList children

/-- The tokens of several elements in document order. -/
def leavesOfList : List Element → List Leaf
  | [] => []
  | e :: es => leaves e ++ leavesOfList es

end

/-- The text of an element: its leaves joined. -/
def text (e : Element) : List Char :=
  e.leaves.flatMap (·.text)

/-- The number of bytes of the text of an element. -/
def byteLength (e : Element) : Nat :=
  Text.byteLength e.text

/-- The text of several elements in a row. -/
def textOfList (es : List Element) : List Char :=
  (leavesOfList es).flatMap (·.text)

/-- A multi-line whitespace token: one that holds a line feed. -/
def isMultilineWhitespace : Element → Bool
  | token .whitespace text => text.contains '\n'
  | _ => false

end Element

end IndentLint
