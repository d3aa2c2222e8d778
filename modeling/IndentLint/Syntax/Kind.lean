/-!
# Kinds of syntax elements

The kinds that matter to indentation have a name of their own; every other leaf is a `token` and every other
composite a `node`.  A kind is stored as its number in the list of all kinds.
-/

namespace IndentLint

/-- What a node or a token of a syntax tree is. -/
inductive Kind where
  /-- The root of a source file. -/
  | file
  /-- Blanks and line breaks between tokens. -/
  | whitespace
  /-- A line or block comment. -/
  | comment
  /-- `=`, `+=`, `-=`, `*=`, `/=` or `%=`. -/
  | assignmentOperator
  /-- A constructor inside a class body that delegates to another. -/
  | secondaryConstructor
  /-- The parenthesised arguments of a call. -/
  | valueArgumentList
  /-- Two operands around an operator. -/
  | binaryExpression
  /-- A member access with `.`. -/
  | dotQualifiedExpression
  /-- A member access with `?.`. -/
  | safeQualifiedExpression
  /-- An expression in parentheses. -/
  | parenthesizedExpression
  /-- The parameters of a function or a primary constructor. -/
  | parameterList
  /-- One entry of a parameter list. -/
  | parameter
  /-- A reference to a type. -/
  | typeReference
  /-- The supertypes in a class header. -/
  | superTypeList
  /-- One entry of a supertype list. -/
  | superTypeListEntry
  /-- A type argument in angle brackets. -/
  | typeProjection
  /-- The call by which a secondary constructor delegates. -/
  | constructorDelegationCall
  /-- A part that could not be parsed. -/
  | error
  /-- Any other leaf. -/
  | token
  /-- Any other composite. -/
  | node
deriving DecidableEq, Repr

namespace Kind

/-- Every kind, in the order of its number. -/
def all : List Kind :=
  [file, whitespace, comment, assignmentOperator, secondaryConstructor, valueArgumentList, binaryExpression,
    dotQualifiedExpression, safeQualifiedExpression, parenthesizedExpression, parameterList, parameter,
    typeReference, superTypeList, superTypeListEntry, typeProjection, constructorDelegationCall, error, token, node]

/-- The number under which a kind is stored. -/
def number (kind : Kind) : Nat :=
  all.idxOf kind

/-- The kind stored under a number. -/
def ofNumber? (n : Nat) : Option Kind :=
  all[n]?

/-- The kind stored under a number, an unknown number being an error. -/
def ofNumber (n : Nat) : Kind :=
  (ofNumber? n).getD error

/-- Whitespace and comments carry no meaning of their own. -/
def isTrivia (kind : Kind) : Bool :=
  kind == whitespace || kind == comment

/-- The name of a kind in words joined by hyphens. -/
def name : Kind → String
  | file => "file"
  | whitespace => "whitespace"
  | comment => "comment"
  | assignmentOperator => "assignment-operator"
  | secondaryConstructor => "secondary-constructor"
  | valueArgumentList => "value-argument-list"
  | binaryExpression => "binary-expression"
  | dotQualifiedExpression => "dot-qualified-expression"
  | safeQualifiedExpression => "safe-qualified-expression"
  | parenthesizedExpression => "parenthesized-expression"
  | parameterList => "parameter-list"
  | parameter => "parameter"
  | typeReference => "type-reference"
  | superTypeList => "super-type-list"
  | superTypeListEntry => "super-type-list-entry"
  | typeProjection => "type-projection"
  | constructorDelegationCall => "constructor-delegation-call"
  | error => "error"
  | token => "token"
  | node => "node"

/-- The kind with a given name. -/
def ofName? (name : String) : Option Kind :=
  all.find? (·.name == name)

end Kind

end IndentLint
