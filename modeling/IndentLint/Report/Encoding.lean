import IndentLint.Json.Fields
import IndentLint.Json.Printer
import IndentLint.Json.Reader
import IndentLint.Report.Violation

/-!
# Results as JSON

A result is written with all its fields in a fixed order.  It is read back strictly: every field has to be there
once and to hold a value of its type, only the mark of a correctable violation may be missing; members that are not
known are passed over.  A record may also be given as the row of its values.
-/

namespace IndentLint

namespace Severity

/-- The severity as JSON. -/
def toJson (s : Severity) : Json :=
  .string s.name

/-- Reads a severity: its word, or an object with the word as its only name and nothing under it. -/
def ofJson? : Json → Option Severity
  | .string word => ofName? word
  | .object [(word, .null)] => ofName? word
  | _ => none

end Severity

namespace Location

/-- The names of the fields in their order. -/
def fieldNames : List String :=
  ["file", "line", "column", "offset", "length"]

/-- The place as JSON. -/
def toJson (l : Location) : Json :=
  .object (fieldNames.zip
    [.string l.file.text, .ofNat l.line, .ofNat l.column, .ofNat l.offset, .ofNat l.length])

/-- Reads a place. -/
def ofJson? (j : Json) : Option Location := do
  match ← j.fields? fieldNames with
  | [some file, some line, some column, some offset, some length] =>
    let file ← file.text?
    let line ← line.natural64?
    let column ← column.natural64?
    let offset ← offset.natural64?
    let length ← length.natural64?
    return { file := ⟨file⟩, line, column, offset, length }
  | _ => none

end Location

namespace Violation

/-- The names of the fields in their order. -/
def fieldNames : List String :=
  ["code", "rule", "severity", "location", "message", "correctable"]

/-- The violation as JSON. -/
def toJson (v : Violation) : Json :=
  .object (fieldNames.zip
    [.string v.code, .string v.rule, v.severity.toJson, v.location.toJson, .string v.message, .bool v.correctable])

/-- Reads a violation; without a mark it is not correctable. -/
def ofJson? (j : Json) : Option Violation := do
  match ← j.fields? fieldNames with
  | [some code, some rule, some severity, some location, some message, correctable] =>
    let code ← code.text?
    let rule ← rule.text?
    let severity ← Severity.ofJson? severity
    let location ← Location.ofJson? location
    let message ← message.text?
    let correctable ← (correctable.getD (.bool false)).flag?
    return { code, rule, severity, location, message, correctable }
  | _ => none

end Violation

namespace LintResult

/-- The names of the fields in their order. -/
def fieldNames : List String :=
  ["violations", "files_checked"]

/-- The result as JSON. -/
def toJson (r : LintResult) : Json :=
  .object (fieldNames.zip [.array (r.violations.map Violation.toJson), .ofNat r.filesChecked])

/-- Reads a result. -/
def ofJson? (j : Json) : Option LintResult := do
  match ← j.fields? fieldNames with
  | [some violations, some filesChecked] =>
    let violations ← (← violations.items?).mapM Violation.ofJson?
    let filesChecked ← filesChecked.natural64?
    return { violations, filesChecked }
  | _ => none

/-- The result as JSON text. -/
def toText (r : LintResult) : String :=
  r.toJson.toText

/-- Reads a result out of JSON text. -/
def ofText? (text : String) : Option LintResult :=
  (Json.read? text.toList).bind ofJson?

end LintResult

end IndentLint
