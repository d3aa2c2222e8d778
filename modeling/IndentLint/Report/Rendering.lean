import IndentLint.Report.Encoding
import IndentLint.Report.Snippet

/-!
# Reports

A result is reported as text with a coloured summary, as one line for each violation, as JSON, or as snippets of the
sources.  The colour of the summary shows the highest severity that was found.
-/

namespace IndentLint

/-- The form of a report. -/
inductive ReportFormat where
  /-- Two lines for each violation and a summary. -/
  | text
  | json
  /-- One line for each violation. -/
  | compact
  /-- A snippet for each violation. -/
  | pretty
deriving DecidableEq, Repr

namespace ReportFormat

/-- The word for a form. -/
def name : ReportFormat → String
  | text => "text"
  | json => "json"
  | compact => "compact"
  | pretty => "pretty"

/-- The form that a word stands for. -/
def ofName? (word : String) : Option ReportFormat :=
  [text, json, compact, pretty].find? (·.name == word)

end ReportFormat

namespace LintResult

/-- The code of the colour for a summary: red for errors, yellow for warnings, and green otherwise. -/
def colour (r : LintResult) : Nat :=
  if 0 < r.count .error then 31
  else if 0 < r.count .warning then 33
  else 32

/-- The numbers of violations and files. -/
def summary (r : LintResult) : String :=
  s!"Found {r.count .error} error(s), {r.count .warning} warning(s), {r.count .info} info(s) in {r.filesChecked} file(s)"

/-- The violations in full, and the summary in its colour. -/
def fullText (r : LintResult) : String :=
  String.join (r.violations.map fun v => v.fullText ++ "\n") ++ s!"\x1b[{r.colour}m{r.summary}\x1b[0m"

/-- The violations, one to a line. -/
def compactText (r : LintResult) : String :=
  "\n".intercalate (r.violations.map Violation.compactText)

/-- The violations in their sources, as far as these can be read. -/
def snippets (r : LintResult) (source? : Path → Option String) : String :=
  String.join (r.violations.map fun v =>
    match source? v.location.file with
    | some text => v.snippet text.toList
    | none => v.compactText ++ "\n")

/-- The report of a result, sources being looked up by the path of the file. -/
def report (r : LintResult) (source? : Path → Option String) : ReportFormat → String
  | .text => r.fullText
  | .json => r.toText
  | .compact => r.compactText
  | .pretty => r.snippets source?

end LintResult

end IndentLint
