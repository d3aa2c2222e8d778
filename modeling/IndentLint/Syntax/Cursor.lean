import IndentLint.Syntax.Tree

/-!
# Positions in a tree

A cursor is an element together with all that surrounds it: the byte at which it starts, and one frame for every
node above it, which holds that node's kind and its children before and after the way down.  Every question about
the neighbours of an element is a question about the frames.
-/

namespace IndentLint

/-- A node with one child taken out. -/
structure Frame where
  kind : Kind
  /-- The earlier children, nearest first. -/
  before : List Element
  /-- The later children, nearest first. -/
  after : List Element

/-- An element of a tree in its place. -/
structure Cursor where
  element : Element
  /-- The byte offset at which the element starts. -/
  start : Nat
  /-- The nodes above it, innermost first. -/
  frames : List Frame

namespace Frame

/-- Puts a child back. -/
def fill (f : Frame) (child : Element) : Element :=
  .node f.kind (f.before.reverse ++ child :: f.after)

/-- The number of bytes of the earlier children. -/
def bytesBefore (f : Frame) : Nat :=
  Text.byteLength (Element.textOfList f.before)

end Frame

namespace Element

mutual

/-- The positions in an element in document order, itself first. -/
def positionsAt (start : Nat) (frames : List Frame) : Element → List Cursor
  | token kind text => [⟨token kind text, start, frames⟩]
  | node kind children => ⟨node kind children, start, frames⟩ :: positionsOfList kind frames start [] children

/-- The positions in the children of a node, from the child at byte `start` on. -/
def positionsOfList (kind : Kind) (frames : List Frame) (start : Nat) (before : List Element) :
    List Element → List Cursor
  | [] => []
  | e :: after =>
    positionsAt start (⟨kind, before, after⟩ :: frames) e ++
      positionsOfList kind frames (start + e.byteLength) (e :: before) after

end

/-- The positions of a whole tree in document order. -/
def positions (root : Element) : List Cursor :=
  positionsAt 0 [] root

/-- The tokens of a tree in their places, in document order. -/
def tokens (root : Element) : List Cursor :=
  root.positions.filter fun c => !c.element.isNode

end Element

namespace Cursor

/-- The kind of the element. -/
def kind (c : Cursor) : Kind :=
  c.element.kind

/-- The number of nodes above the element. -/
def depth (c : Cursor) : Nat :=
  c.frames.length

/-- The byte offset at which the element ends. -/
def stop (c : Cursor) : Nat :=
  c.start + c.element.byteLength

/-- The children of the element in their places, from the child at byte `start` on. -/
def childrenFrom (kind : Kind) (frames : List Frame) (start : Nat) (before : List Element) :
    List Element → List Cursor
  | [] => []
  | e :: after =>
    ⟨e, start, ⟨kind, before, after⟩ :: frames⟩ ::
      childrenFrom kind frames (start + e.byteLength) (e :: before) after

/-- The children of the element in their places; a token has none. -/
def children (c : Cursor) : List Cursor :=
  match c.element with
  | .token .. => []
  | .node kind es => childrenFrom kind c.frames c.start [] es

/-- The token that following the first child downward from `e` leads to.

An empty node on that way hides the tokens after it. -/
def firstTokenFrom (start : Nat) (frames : List Frame) : Element → Option Cursor
  | .token kind text => some ⟨.token kind text, start, frames⟩
  | .node _ [] => none
  | .node kind (e :: after) => firstTokenFrom start (⟨kind, [], after⟩ :: frames) e

/-- The first token of the element, a token being its own. -/
def firstToken? (c : Cursor) : Option Cursor :=
  firstTokenFrom c.start c.frames c.element

/-- The nodes above `e` in their places, innermost first. -/
def ancestorsFrom (e : Element) (start : Nat) : List Frame → List Cursor
  | [] => []
  | f :: frames =>
    ⟨f.fill e, start - f.bytesBefore, frames⟩ :: ancestorsFrom (f.fill e) (start - f.bytesBefore) frames

/-- The nodes above the element in their places, innermost first. -/
def ancestors (c : Cursor) : List Cursor :=
  ancestorsFrom c.element c.start c.frames

/-- The kind of the node just above. -/
def parentKind? (c : Cursor) : Option Kind :=
  c.frames.head?.map (·.kind)

/-- The siblings before the element, nearest first. -/
def earlierSiblings (c : Cursor) : List Element :=
  match c.frames with
  | [] => []
  | f :: _ => f.before

/-- The sibling just after the element. -/
def nextSibling? (c : Cursor) : Option Element :=
  match c.frames with
  | [] => none
  | f :: _ => f.after.head?

/-- The nearest of the elements `before`, which end at byte `stop`, that is neither whitespace nor comment, and the
byte at which it starts. -/
def nearestNonTrivia? (stop : Nat) : List Element → Option (Element × Nat)
  | [] => none
  | e :: before =>
    if e.kind.isTrivia then nearestNonTrivia? (stop - e.byteLength) before else some (e, stop - e.byteLength)

/-- The nearest earlier sibling that is neither whitespace nor comment, and the byte at which it starts. -/
def previousNonTrivia? (c : Cursor) : Option (Element × Nat) :=
  nearestNonTrivia? c.start c.earlierSiblings

/-- Whether some node above the element is a comment. -/
def inComment (c : Cursor) : Bool :=
  c.frames.any (·.kind == .comment)

end Cursor

end IndentLint
