import IndentLint.Analysis.Frontend
import IndentLint.Config.Basic
import IndentLint.Report.Violation

/-!
# Analysing one source

The frontend that handles the file makes a tree of the source.  Every rule that is switched on walks through the
tree, all of them together element by element, and their complaints become violations, those of one rule after
those of the rule before.
-/

namespace IndentLint

/-- Why an analysis ends without a result. -/
inductive AnalysisError where
  /-- A file cannot be read. -/
  | unreadable (detail : String)
  /-- A directory cannot be walked through. -/
  | walk
  /-- A file has syntax errors, and these are not put up with. -/
  | syntaxErrors (path : Path) (language : String)
  /-- There is no tree for a file. -/
  | frontend (path : Path) (cause : FrontendError)
  /-- A rule cannot go on. -/
  | rule (path : Path) (cause : RuleError)
  /-- No frontend handles a file. -/
  | unsupportedFile (path : Path)
  | config (cause : ConfigError)
deriving DecidableEq, Repr

namespace AnalysisError

/-- The cause in words. -/
def message : AnalysisError → String
  | unreadable detail => s!"IO error: {detail}"
  | walk => "Walk error"
  | syntaxErrors path language => s!"Parse error in {path.text}: {language} parser reported syntax errors"
  | frontend path cause => s!"Frontend error in {path.text}: {cause.message}"
  | rule path cause => s!"Rule error in {path.text}: {cause.message}"
  | unsupportedFile path => s!"No frontend registered for {path.text}"
  | config cause => s!"Configuration error: {cause.message}"

end AnalysisError

/-- A rule on its way through a file. -/
structure RunningRule where
  rule : Rule
  state : rule.State
  /-- The complaints about each element so far, newest first. -/
  found : List (List Finding)

namespace RunningRule

/-- A rule before the first element. -/
def start (rule : Rule) : RunningRule :=
  ⟨rule, rule.initial, []⟩

/-- Takes one element. -/
def step (ctx : FileContext) (c : Cursor) (r : RunningRule) : Except RuleError RunningRule :=
  match r.rule.visit ctx c r.state with
  | .error e => .error e
  | .ok (state, findings) => .ok ⟨r.rule, state, findings :: r.found⟩

/-- The complaints in the order they were made. -/
def findings (r : RunningRule) : List Finding :=
  r.found.reverse.flatten

end RunningRule

/-- Takes all rules through some elements; the first rule that cannot go on with an element ends the walk. -/
def walkRules (ctx : FileContext) (running : List RunningRule) : List Cursor → Except RuleError (List RunningRule)
  | [] => .ok running
  | c :: cs =>
    match running.mapM (·.step ctx c) with
    | .error e => .error e
    | .ok next => walkRules ctx next cs

/-- An analysis that is set up. -/
structure Analyzer where
  /-- The absolute path of the project. -/
  root : Path
  rules : List Rule
  frontends : List Frontend
  exclude : List String
  config : Config
  failOnParseError : Bool

/-- What an analysis is set up from; what is not given here is taken from the configuration. -/
structure AnalyzerSettings where
  root : Option Path
  rules : List Rule
  frontends : List Frontend
  /-- Globs of files to leave out, before those of the configuration. -/
  exclude : List String
  config : Config
  failOnParseError : Option Bool

namespace AnalyzerSettings

/-- Sets up an analysis in a working directory. -/
def build (s : AnalyzerSettings) (workingDirectory : Path) : Except ConfigError Analyzer :=
  s.config.validate.map fun _ =>
    { root := workingDirectory.join (s.root.getD s.config.analyzer.root)
      rules := s.rules
      frontends := s.frontends
      exclude := s.exclude ++ s.config.analyzer.exclude
      config := s.config
      failOnParseError := s.failOnParseError.getD s.config.analyzer.failOnParseError }

end AnalyzerSettings

/-- The number of bytes of blanks and tabs at byte `offset` of a text. -/
def indentationAt (text : List Char) (offset : Nat) : Nat :=
  match Text.splitBytes? text offset with
  | some (_, rest) => (rest.takeWhile fun c => c == ' ' || c == '\t').length
  | none => 0

namespace Analyzer

/-- The rules that are switched on. -/
def enabledRules (a : Analyzer) : List Rule :=
  a.rules.filter fun r => a.config.isRuleEnabled r.name

/-- The violation that a complaint of a rule is. -/
def violation (a : Analyzer) (file : Path) (text : List Char) (index : LineIndex) (rule : Rule) (f : Finding) :
    Violation :=
  let p := index.position text f.offset
  { code := rule.code
    rule := rule.name
    severity := (a.config.ruleSeverity? rule.name).getD rule.severity
    location := { file, line := p.line, column := p.column, offset := f.offset, length := indentationAt text f.offset }
    message := f.message
    correctable := f.correctable }

/-- Takes the rules that are switched on through a tree whose source is `text`. -/
def runRules (a : Analyzer) (ctx : FileContext) (tree : Element) (text : List Char) :
    Except RuleError (List Violation) :=
  (walkRules ctx (a.enabledRules.map RunningRule.start) tree.positions).map fun done =>
    done.flatMap fun r => r.findings.map (a.violation ctx.relativePath text (LineIndex.ofText text) r.rule)

/-- The frontend that handles a file, the first of several. -/
def frontendFor? (a : Analyzer) (path : Path) : Option Frontend :=
  a.frontends.find? (·.handles path)

/-- What the rules are told about a file. -/
def contextFor (a : Analyzer) (path : Path) : FileContext :=
  .of path a.root (a.config.propertiesFor (path.relativeTo a.root))

/-- Analyses a source as if it were the content of the file at `path`. -/
def analyzeSource (a : Analyzer) (path : Path) (source : List Char) : Except AnalysisError (List Violation) :=
  match a.frontendFor? path with
  | none => .error (.unsupportedFile path)
  | some frontend =>
    match frontend.parse source with
    | .error e => .error (.frontend path e)
    | .ok parsed =>
      if parsed.hasSyntaxErrors && a.failOnParseError then
        .error (.syntaxErrors path frontend.language)
      else
        (a.runRules (a.contextFor path) parsed.tree source).mapError (.rule path)

end Analyzer

end IndentLint
