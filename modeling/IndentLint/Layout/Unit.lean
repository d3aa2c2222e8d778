import IndentLint.Config.Properties
import IndentLint.Text.Blank
import IndentLint.Text.Integer

/-!
# Indentation units

A file has a block unit and a continuation unit, each a number of columns or disabled.  They are read from two
properties.  A block unit that cannot be read is the default, a continuation unit that cannot be read is the block
unit, and where either unit is disabled nothing is checked.
-/

namespace IndentLint

/-- The property that holds the block unit. -/
def indentSizeKey : String :=
  "indent_size"

/-- The property that holds the continuation unit. -/
def continuationIndentSizeKey : String :=
  "continuation_indent_size"

/-- The block unit where none is given. -/
def defaultIndentSize : Nat :=
  4

/-- One unit of indentation. -/
inductive IndentUnit where
  | columns (n : Nat)
  | disabled
deriving DecidableEq, Repr

/-- The units of one file. -/
structure IndentConfig where
  block : IndentUnit
  continuation : IndentUnit
deriving DecidableEq, Repr

/-- Two units that lines are measured by, in columns. -/
structure Units where
  block : Nat
  continuation : Nat
deriving DecidableEq, Repr

namespace IndentUnit

/-- The unit of a whole number: positive numbers are columns, all others disable the check. -/
def ofInt (n : Int) : IndentUnit :=
  if 0 < n then columns n.toNat else disabled

/-- Reads a unit: a whole number or the word `unset` in any case, with blanks around it. -/
def read? (value : String) : Option IndentUnit :=
  let word := Text.trim value.toList
  match Text.integer64? word with
  | some n => some (ofInt n)
  | none => if word.map Char.toLower = "unset".toList then some disabled else none

/-- The columns of a unit that is not disabled. -/
def columns? : IndentUnit → Option Nat
  | columns n => some n
  | disabled => none

/-- The unit of a property, `fallback` where it is absent or cannot be read. -/
def resolve (fallback : IndentUnit) (value : Option String) : IndentUnit :=
  (value.bind read?).getD fallback

end IndentUnit

namespace IndentConfig

/-- The units of two property values. -/
def resolve (block continuation : Option String) : IndentConfig :=
  let blockUnit := IndentUnit.resolve (.columns defaultIndentSize) block
  ⟨blockUnit, IndentUnit.resolve blockUnit continuation⟩

/-- The units that the properties of a file give. -/
def ofProperties (properties : Properties) : IndentConfig :=
  resolve (properties.get? indentSizeKey) (properties.get? continuationIndentSizeKey)

/-- Both units in columns, unless one is disabled. -/
def units? (config : IndentConfig) : Option Units := do
  let block ← config.block.columns?
  let continuation ← config.continuation.columns?
  return ⟨block, continuation⟩

end IndentConfig

end IndentLint
