import IndentLint.Rule.Basic

/-!
# Violations

A violation is a complaint with its place in a file and the rule that made it.  Violations are sorted by file, then
line, then column, and otherwise keep their order.
-/

namespace IndentLint

/-- A place in a file. -/
structure Location where
  /-- The path as seen from the root of the project. -/
  file : Path
  line : Nat
  column : Nat
  /-- The byte at which the place starts. -/
  offset : Nat
  /-- The number of bytes it covers. -/
  length : Nat
deriving DecidableEq, Repr

/-- A complaint of a rule about a place. -/
structure Violation where
  code : String
  rule : String
  severity : Severity
  location : Location
  message : String
  /-- Whether it could be mended without a human. -/
  correctable : Bool
deriving DecidableEq, Repr

/-- What an analysis found. -/
structure LintResult where
  violations : List Violation
  filesChecked : Nat
deriving DecidableEq, Repr

namespace Violation

/-- Whether `v` may stand before `w` in a report. -/
def le (v w : Violation) : Bool :=
  (v.location.file.compare w.location.file).then
    ((compare v.location.line w.location.line).then (compare v.location.column w.location.column)) |>.isLE

/-- The violation in one line. -/
def compactText (v : Violation) : String :=
  s!"{v.location.file.text}:{v.location.line}:{v.location.column}: {v.severity.name} [{v.code}] {v.message}"

/-- The violation in two lines, each with a line break. -/
def fullText (v : Violation) : String :=
  s!"{v.code} {v.rule} at {v.location.file.text}:{v.location.line}:{v.location.column}\n  {v.severity.name}: {v.message}\n"

/-- The message with the code before it. -/
def headline (v : Violation) : String :=
  s!"[{v.code}] {v.message}"

end Violation

namespace LintResult

/-- Nothing was found in no file. -/
def empty : LintResult :=
  ⟨[], 0⟩

/-- The number of violations of one severity. -/
def count (r : LintResult) (severity : Severity) : Nat :=
  r.violations.countP (·.severity == severity)

/-- Whether there is a violation of a severity or a higher one. -/
def hasAtLeast (r : LintResult) (severity : Severity) : Bool :=
  r.violations.any fun v => severity.rank ≤ v.severity.rank

/-- Whether there is an error. -/
def hasErrors (r : LintResult) : Bool :=
  r.violations.any (·.severity == .error)

/-- Whether there is a warning or an error. -/
def hasWarnings (r : LintResult) : Bool :=
  r.hasAtLeast .warning

/-- Puts the violations in the order of a report. -/
def sort (r : LintResult) : LintResult :=
  { r with violations := r.violations.mergeSort Violation.le }

/-- Adds one violation at the end. -/
def push (r : LintResult) (v : Violation) : LintResult :=
  { r with violations := r.violations ++ [v] }

/-- Adds what another analysis found; the number of files has to fit in 64 bits. -/
def extend? (r other : LintResult) : Option LintResult :=
  let filesChecked := r.filesChecked + other.filesChecked
  if filesChecked < Nat.pow 2 64 then some ⟨r.violations ++ other.violations, filesChecked⟩ else none

end LintResult

end IndentLint
