import IndentLint.Kotlin.Kinds
import IndentLint.Syntax.Event
import IndentLint.Syntax.Gap

/-!
# Lowering by byte positions

A walk through a parse tree turns its byte ranges into events that build a syntax tree.  It keeps the byte up to which
the source is written down already and gives every child the part of its range that lies between this byte and the
end of its parent, less the blanks at both ends.  What no child takes is written down as text without structure.  A
walk that asks for bytes which are no slice of the source, or whose events build no tree, ends with a fault.
-/

namespace IndentLint.Kotlin

/-- Why a parse tree cannot be lowered. -/
inductive LoweringFault where
  /-- The bytes of a node are no slice of the source. -/
  | noSlice (start stop : Nat)
  /-- The events of the walk build no tree. -/
  | unbuilt (cause : BuildError)
deriving DecidableEq, Repr

namespace LoweringFault

/-- The cause in words. -/
def message : LoweringFault → String
  | noSlice start stop => s!"bytes {start} to {stop} are no slice of the source"
  | unbuilt .nothingToFinish => "a node was finished that was never started"
  | unbuilt .notOneNode => "the events built no single node"

end LoweringFault

/-- The events of the text without structure between two bytes; none where these bytes are no slice of the source. -/
def gapEvents (source : List Char) (start stop : Nat) : List Event :=
  match Text.slice? source start stop with
  | none => []
  | some text => Element.eventsOfList (Element.gap text)

namespace ParseTree

/-- The bytes of a node between `floor` and `ceiling` without the blanks at both ends; `none` where nothing visible
remains of them. -/
def visibleRange? (source : List Char) (floor ceiling : Nat) (t : ParseTree) : Option (Nat × Nat) := do
  let start := max t.start floor
  let text ← Text.slice? source start (min t.stop ceiling)
  let visible := Text.trimStart text
  let first := start + (Text.byteLength text - Text.byteLength visible)
  let last := first + Text.byteLength (Text.trimEnd visible)
  guard (first < last)
  return (first, last)

mutual

/-- The events of a node that takes the bytes from `start` to `stop`.

A whole file inside another vanishes in favour of its children. -/
def walk (source : List Char) (start stop : Nat) : ParseTree → Except LoweringFault (List Event)
  | node kind s e children =>
    let t := node kind s e children
    match Text.slice? source start stop with
    | none => .error (.noSlice start stop)
    | some text =>
      if t.isOpaque then .ok [.token .token text]
      else if t.elementKind = .file then walkChildren source start stop children
      else if children.isEmpty then .ok [.token t.elementKind text]
      else (walkChildren source start stop children).map fun inner => .start t.elementKind :: (inner ++ [.finish])

/-- The events of the bytes from `cursor` to `stop`, which are divided among some nodes. -/
def walkChildren (source : List Char) (cursor stop : Nat) : List ParseTree → Except LoweringFault (List Event)
  | [] => .ok (gapEvents source cursor stop)
  | child :: rest =>
    match child.visibleRange? source cursor stop with
    | none => walkChildren source cursor stop rest
    | some (first, last) => do
      let inner ← walk source first last child
      let later ← walkChildren source last stop rest
      return gapEvents source cursor first ++ inner ++ later

end

/-- The syntax tree of a source, or why there is none. -/
def build (source : List Char) (t : ParseTree) : Except LoweringFault Element := do
  let inner ← walkChildren source 0 (Text.byteLength source) t.children
  (Element.ofEvents (.start .file :: (inner ++ [.finish]))).mapError .unbuilt

end ParseTree

end IndentLint.Kotlin
