import IndentLint.Kotlin.ParseTree
import IndentLint.Syntax.Kind

/-!
# Kinds of Kotlin nodes

The grammar's kinds are many; only some of them matter to indentation.  Literals are opaque: the line breaks inside
them are content.  A member access is safe when `?.` stands among its children or its grandchildren.
-/

namespace IndentLint.Kotlin

/-- The kinds of nodes that become one token whatever is inside them. -/
def opaqueKinds : List String :=
  ["string_literal", "multiline_string_literal", "line_string_literal", "character_literal"]

/-- The kinds of nodes that are comments. -/
def commentKinds : List String :=
  ["line_comment", "block_comment", "comment", "multiline_comment"]

/-- The operators that assign. -/
def assignmentOperators : List String :=
  ["=", "+=", "-=", "*=", "/=", "%="]

/-- The kinds of nodes that are an operator between two operands. -/
def binaryKinds : List String :=
  ["additive_expression", "multiplicative_expression", "comparison_expression", "equality_expression",
    "conjunction_expression", "disjunction_expression", "elvis_expression", "infix_expression",
    "range_expression", "binary_expression"]

/-- The kinds of nodes that are parameters in parentheses. -/
def parameterListKinds : List String :=
  ["function_value_parameters", "class_parameters"]

/-- The kinds of nodes that are one parameter. -/
def parameterKinds : List String :=
  ["parameter", "function_value_parameter", "class_parameter"]

/-- The kinds of nodes that refer to a type. -/
def typeKinds : List String :=
  ["user_type", "nullable_type", "function_type", "type", "type_reference"]

/-- The kinds of nodes that are one supertype. -/
def superTypeKinds : List String :=
  ["delegation_specifier", "annotated_delegation_specifier"]

namespace ParseTree

/-- Whether the node becomes one token whatever is inside it. -/
def isOpaque (t : ParseTree) : Bool :=
  opaqueKinds.contains t.kind

/-- Whether `?.` stands among the children or the grandchildren. -/
def isSafeAccess (t : ParseTree) : Bool :=
  t.children.any fun c => c.kind == "?." || c.children.any (·.kind == "?.")

/-- The kind of a node that has children and no special meaning. -/
def compositeKind (t : ParseTree) : Kind :=
  if t.kind == "secondary_constructor" then .secondaryConstructor
  else if t.kind == "value_arguments" then .valueArgumentList
  else if binaryKinds.contains t.kind then .binaryExpression
  else if t.kind == "navigation_expression" then
    if t.isSafeAccess then .safeQualifiedExpression else .dotQualifiedExpression
  else if t.kind == "parenthesized_expression" then .parenthesizedExpression
  else if parameterListKinds.contains t.kind then .parameterList
  else if parameterKinds.contains t.kind then .parameter
  else if typeKinds.contains t.kind then .typeReference
  else if t.kind == "delegation_specifiers" then .superTypeList
  else if superTypeKinds.contains t.kind then .superTypeListEntry
  else if t.kind == "type_projection" then .typeProjection
  else if t.kind == "constructor_delegation_call" then .constructorDelegationCall
  else .node

/-- The kind of the element that a node becomes. -/
def elementKind (t : ParseTree) : Kind :=
  if t.kind == "source_file" then .file
  else if commentKinds.contains t.kind then .comment
  else if assignmentOperators.contains t.kind then .assignmentOperator
  else if t.kind == "ERROR" then .error
  else if t.children.isEmpty then .token
  else t.compositeKind

end ParseTree

end IndentLint.Kotlin
