import IndentLint.Syntax.Cursor

/-!
# Block or continuation

Whitespace before a line of its own scope is indented by the block unit.  Where the line goes on with an
expression or a declaration that began on an earlier line, the whitespace is a continuation.  Which of the two
holds is read off the nearest meaningful sibling before the whitespace, the sibling just after it, and the node
around it, in this order of precedence.
-/

namespace IndentLint

/-- Why whitespace is a continuation. -/
inductive Reason where
  /-- Right after an assignment operator. -/
  | afterAssignment
  /-- In the declaration of a secondary constructor. -/
  | secondaryConstructor
  /-- Right before a type reference. -/
  | beforeTypeReference
  /-- Right before a supertype list. -/
  | beforeSuperTypeList
  /-- Right before an entry of a supertype list. -/
  | beforeSuperTypeListEntry
  /-- Right before a type projection. -/
  | beforeTypeProjection
  /-- Among the arguments of a call. -/
  | valueArguments
  /-- In a binary expression. -/
  | binaryExpression
  /-- In a chain of member accesses. -/
  | qualifiedExpression
  /-- In parentheses. -/
  | parenthesizedExpression
deriving DecidableEq, Repr

/-- How whitespace is to be indented. -/
inductive Context where
  /-- As a line of the enclosing scope. -/
  | block
  /-- As the rest of something that began earlier. -/
  | continuation (reason : Reason)
deriving DecidableEq, Repr

namespace Context

/-- Whether the context is a continuation. -/
def isContinuation : Context → Bool
  | block => false
  | continuation _ => true

end Context

namespace Reason

/-- The reason that lies in the sibling just after. -/
def ofNext? : Kind → Option Reason
  | .typeReference => some beforeTypeReference
  | .superTypeList => some beforeSuperTypeList
  | .superTypeListEntry => some beforeSuperTypeListEntry
  | .typeProjection => some beforeTypeProjection
  | _ => none

/-- The reason that lies in the node around. -/
def ofParent? : Kind → Option Reason
  | .valueArgumentList => some valueArguments
  | .binaryExpression => some binaryExpression
  | .dotQualifiedExpression => some qualifiedExpression
  | .safeQualifiedExpression => some qualifiedExpression
  | .parenthesizedExpression => some parenthesizedExpression
  | _ => none

/-- The first reason among the surroundings: the kinds of the nearest meaningful sibling before, of the node around
and of the sibling just after. -/
def ofSurroundings? (previous parent next : Option Kind) : Option Reason :=
  if previous = some .assignmentOperator then some afterAssignment
  else if parent = some .secondaryConstructor then some secondaryConstructor
  else (next.bind ofNext?).or (parent.bind ofParent?)

end Reason

namespace Cursor

/-- Why the element is a continuation, if it is one. -/
def continuationReason? (c : Cursor) : Option Reason :=
  Reason.ofSurroundings? (c.previousNonTrivia?.map (·.1.kind)) c.parentKind? (c.nextSibling?.map (·.kind))

/-- The context in which the element is indented. -/
def context (c : Cursor) : Context :=
  c.continuationReason?.elim .block .continuation

end Cursor

end IndentLint
