/-!
# Parse trees of Kotlin

What a grammar makes of a source: nodes with a kind, a byte range and children.  Nothing is promised about the
ranges; they may overlap, leave their parent or the source, or cut a character.
-/

namespace IndentLint.Kotlin

/-- A node of a parse tree. -/
inductive ParseTree where
  | node (kind : String) (start stop : Nat) (children : List ParseTree)
deriving Repr

/-- What a grammar makes of a whole source. -/
structure Parse where
  root : ParseTree
  /-- Whether the grammar had to skip over errors. -/
  hasErrors : Bool

/-- A grammar: the parse of each source it can parse at all. -/
abbrev Grammar : Type :=
  List Char → Option Parse

namespace ParseTree

/-- The kind of a node. -/
def kind : ParseTree → String
  | node k _ _ _ => k

/-- The byte at which a node starts. -/
def start : ParseTree → Nat
  | node _ s _ _ => s

/-- The byte at which a node ends. -/
def stop : ParseTree → Nat
  | node _ _ e _ => e

/-- The nodes just below. -/
def children : ParseTree → List ParseTree
  | node _ _ _ cs => cs

/-- Puts a node before the trees that follow it in a list of nodes in document order; the first `count` of them are
its children. -/
def gather (kind : String) (start stop count : Nat) (later : List ParseTree) : List ParseTree :=
  node kind start stop (later.take count) :: later.drop count

end ParseTree

end IndentLint.Kotlin
