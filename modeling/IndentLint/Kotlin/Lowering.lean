import IndentLint.Kotlin.Kinds
import IndentLint.Syntax.Gap
import IndentLint.Text.Bytes

/-!
# From parse trees to syntax trees by dividing texts

A parse tree does not speak of the text between its nodes.  Lowering keeps all of it: the text of a node is divided
among its children, from left to right, and what lies between them becomes whitespace and plain tokens.  A child
gets its own range as far as it lies in the text that is left, less the blanks at both ends, which stay with the
parent.  So a line break and the blanks after it come to lie in one token, and no character is lost or doubled
however wild the ranges are.  The walk by byte positions builds the same tree.
-/

namespace IndentLint.Kotlin

/-- A text divided around the part that a child takes. -/
structure Cut where
  before : List Char
  inner : List Char
  after : List Char
deriving DecidableEq, Repr

/-- Divides `cs` around the bytes from `start` to `stop`, as far as they exist, less the blanks at both ends of
them; `none` where nothing visible is between these bytes. -/
def cut? (cs : List Char) (start stop : Nat) : Option Cut := do
  let stop := min stop (Text.byteLength cs)
  guard (start ≤ stop)
  let (before, rest) ← Text.splitBytes? cs start
  let (middle, after) ← Text.splitBytes? rest (stop - start)
  let visible := Text.trimStart middle
  let inner := Text.trimEnd visible
  guard !inner.isEmpty
  return ⟨before ++ middle.takeWhile Text.isBlank, inner, visible.drop inner.length ++ after⟩

namespace ParseTree

mutual

/-- The elements that a node with the text `cs` becomes, the text beginning at byte `start`.

A whole file inside another vanishes in favour of its children. -/
def lower (cs : List Char) (start : Nat) : ParseTree → List Element
  | node kind s e children =>
    let t := node kind s e children
    if t.isOpaque then [.token .token cs]
    else if t.elementKind = .file then lowerChildren cs start children
    else if children.isEmpty then [.token t.elementKind cs]
    else [.node t.elementKind (lowerChildren cs start children)]

/-- The elements of the text `cs`, which begins at byte `start` and is divided among some nodes. -/
def lowerChildren (cs : List Char) (start : Nat) : List ParseTree → List Element
  | [] => Element.gap cs
  | child :: rest =>
    match cut? cs (child.start - start) (child.stop - start) with
    | none => lowerChildren cs start rest
    | some c =>
      let inner := start + Text.byteLength c.before
      Element.gap c.before ++ lower c.inner inner child ++
        lowerChildren c.after (inner + Text.byteLength c.inner) rest

end

/-- The syntax tree of a source. -/
def toElement (source : List Char) (t : ParseTree) : Element :=
  .node .file (lowerChildren source 0 t.children)

end ParseTree

end IndentLint.Kotlin
