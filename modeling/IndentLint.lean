import IndentLint.Main
import IndentLint.Rule.Script
import IndentLint.Syntax.Event
import IndentLint.Kotlin.Lowering
import IndentLint.Proofs.Text.Bytes
import IndentLint.Proofs.Text.Lines
import IndentLint.Proofs.Syntax.Positions
import IndentLint.Proofs.Kotlin.Walk
import IndentLint.Proofs.Kotlin.Lossless
import IndentLint.Proofs.Kotlin.Whitespace
import IndentLint.Proofs.Layout.Lines
import IndentLint.Proofs.Layout.Findings
import IndentLint.Proofs.Layout.Unit
import IndentLint.Proofs.Rule.Indentation
import IndentLint.Proofs.Report.Violation
import IndentLint.Proofs.Analysis.Kotlin
import IndentLint.Proofs.Syntax.Paths
import IndentLint.Proofs.Syntax.Places
import IndentLint.Proofs.Syntax.Column
import IndentLint.Proofs.Kotlin.Column
import IndentLint.Proofs.Syntax.TextChange
import IndentLint.Proofs.Layout.Surroundings
import IndentLint.Proofs.Layout.Reach
import IndentLint.Proofs.Syntax.TextMap
import IndentLint.Proofs.Text.CarriageReturns
import IndentLint.Proofs.Layout.LineEndings
import IndentLint.Proofs.Kotlin.Nesting
import IndentLint.Proofs.Kotlin.Sheltered
import IndentLint.Proofs.Analysis.Sheltered
import IndentLint.Proofs.Analysis.Safety
import IndentLint.Proofs.Config.Properties
import IndentLint.Proofs.Rule.Visits
import IndentLint.Proofs.Command.Sizes
import IndentLint.Proofs.File.Descent
import IndentLint.Proofs.Ignore.Level
import IndentLint.Proofs.Analysis.Checkout
import IndentLint.Proofs.Analysis.Relocation
import IndentLint.Proofs.Layout.Anchor
import IndentLint.Proofs.Json.RoundTrip
import IndentLint.Proofs.Report.Encoding
import IndentLint.Proofs.Analysis.Discovery
import IndentLint.Proofs.Analysis.PathOrder
import IndentLint.Proofs.Layout.CitedUnit
import IndentLint.Proofs.Kotlin.Outline
import IndentLint.Proofs.Glob.OpenEnds
import IndentLint.Proofs.Analysis.Exclusion
import IndentLint.Proofs.File.Steps
import IndentLint.Proofs.Config.Search
import IndentLint.Proofs.Config.Layers
import IndentLint.Proofs.Config.Reordering
import IndentLint.Proofs.Command.Root
import IndentLint.Proofs.Analysis.Span
import IndentLint.Proofs.Layout.FinerUnits
import IndentLint.Proofs.Text.Lookup
import IndentLint.Proofs.File.Relative
import IndentLint.Proofs.Report.Sorting
import IndentLint.Proofs.Analysis.ReportedName
import IndentLint.Proofs.Command.Sources
import IndentLint.Proofs.Syntax.Insertion
import IndentLint.Proofs.Layout.Trivia
import IndentLint.Proofs.Kotlin.MemberAccess
import IndentLint.Proofs.Text.Integer
import IndentLint.Proofs.Config.Units
import IndentLint.Proofs.Layout.LastLine
