import IndentLint.Syntax.Tree

/-!
# Trees built from events

A tree can be written as the events of a walk through it: a node is started, tokens are added, the node is
finished.  A node takes everything that was built since its own start, so a start that is never finished leaves no
trace in the tree.
-/

namespace IndentLint

/-- One step of building a tree. -/
inductive Event where
  | start (kind : Kind)
  | token (kind : Kind) (text : List Char)
  | finish
deriving DecidableEq, Repr

/-- Why a list of events is no tree. -/
inductive BuildError where
  /-- A node is finished that was never started. -/
  | nothingToFinish
  /-- What is built in the end is not exactly one node. -/
  | notOneNode
deriving DecidableEq, Repr

/-- A started node and the elements that were built since the start before it, newest first. -/
structure Started where
  kind : Kind
  earlier : List Element

/-- A tree under construction: the started nodes, innermost first, and the newest elements, newest first. -/
structure Builder where
  started : List Started
  newest : List Element

namespace Builder

/-- Nothing is built. -/
def empty : Builder :=
  ⟨[], []⟩

/-- Adds one event. -/
def add (b : Builder) : Event → Except BuildError Builder
  | .start kind => .ok ⟨⟨kind, b.newest⟩ :: b.started, []⟩
  | .token kind text => .ok { b with newest := .token kind text :: b.newest }
  | .finish =>
    match b.started with
    | [] => .error .nothingToFinish
    | s :: outer => .ok ⟨outer, .node s.kind b.newest.reverse :: s.earlier⟩

/-- Everything that stands on its own, newest first: also what was built inside nodes that are still open. -/
def elements (b : Builder) : List Element :=
  b.newest ++ b.started.flatMap (·.earlier)

/-- The finished tree. -/
def result (b : Builder) : Except BuildError Element :=
  match b.elements with
  | [.node kind children] => .ok (.node kind children)
  | _ => .error .notOneNode

end Builder

namespace Element

/-- The tree that a list of events builds. -/
def ofEvents (events : List Event) : Except BuildError Element := do
  let b ← events.foldlM Builder.add Builder.empty
  b.result

mutual

/-- The events that build an element. -/
def events : Element → List Event
  | token k text => [.token k text]
  | node k children => .start k :: (eventsOfList children ++ [.finish])

/-- The events that build several elements in a row. -/
def eventsOfList : List Element → List Event
  | [] => []
  | e :: es => events e ++ eventsOfList es

end

end Element

end IndentLint
