import IndentLint.Config.Properties
import IndentLint.File.Path
import IndentLint.Layout.Check

/-!
# Rules

A rule walks through a file element by element.  What it has to remember lies in a state of its own type, which
starts afresh for every file, so two rules cannot see each other.
-/

namespace IndentLint

/-- How much a violation matters, in increasing order. -/
inductive Severity where
  | info
  | warning
  | error
deriving DecidableEq, Repr

namespace Severity

/-- The position in the order of severities. -/
def rank : Severity → Nat
  | info => 0
  | warning => 1
  | error => 2

/-- The word for a severity. -/
def name : Severity → String
  | info => "info"
  | warning => "warning"
  | error => "error"

/-- The severity that a word stands for. -/
def ofName? (word : String) : Option Severity :=
  [info, warning, error].find? (·.name == word)

end Severity

/-- What rules know about the file they walk through. -/
structure FileContext where
  /-- The path at which the file was found. -/
  path : Path
  /-- The path as seen from the root of the project. -/
  relativePath : Path
  /-- Whether the file is a script. -/
  isScript : Bool
  /-- The settings that apply to the file. -/
  properties : Properties

namespace FileContext

/-- The context of the file at `path` in a project with the given root. -/
def of (path root : Path) (properties : Properties) : FileContext :=
  { path, relativePath := path.relativeTo root, isScript := path.extension? = some "kts".toList, properties }

/-- The value of a setting. -/
def property? (ctx : FileContext) (key : String) : Option String :=
  ctx.properties.get? key

end FileContext

/-- Why a rule cannot go on. -/
inductive RuleError where
  /-- An element came before the root of the file, which tells the rule its settings. -/
  | configurationMissing (rule : String)
  /-- The lines of an element cannot be measured. -/
  | unmeasurable (cause : MeasureError)
deriving DecidableEq, Repr

namespace MeasureError

/-- The cause in words. -/
def message : MeasureError → String
  | zeroUnit => "the indentation unit is zero"

end MeasureError

namespace RuleError

/-- The cause in words. -/
def message : RuleError → String
  | configurationMissing rule => "rule \x60" ++ rule ++ "\x60 visited a node before the file root was visited"
  | unmeasurable cause => cause.message

end RuleError

/-- A rule: what it is called, and what it does with each element of a file. -/
structure Rule where
  name : String
  code : String
  description : String
  severity : Severity
  /-- What the rule remembers within one file. -/
  State : Type
  /-- What it remembers at the start of a file. -/
  initial : State
  /-- Takes one element and gives the new state and the complaints about the element. -/
  visit : FileContext → Cursor → State → Except RuleError (State × List Finding)

end IndentLint
