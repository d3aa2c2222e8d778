import IndentLint.Analysis.Discovery
import IndentLint.Command.Invocation
import IndentLint.Command.Listing
import IndentLint.Command.Usage
import IndentLint.Config.Search
import IndentLint.Config.Template

/-!
# Running a command line

A run sees files, standard input and a few names from its environment; it leaves an exit code, an output, perhaps
an error, and files to write.  Nothing is put out by a run that ends with an error.
-/

namespace IndentLint.Command

/-- What a run can see. -/
structure Surroundings extends Standpoint where
  /-- The configuration that the environment names. -/
  config : Option String
  /-- The directory of the user's own configuration, if it is not the usual one. -/
  configDirectory : Option String
  /-- The bytes of standard input. -/
  input : ByteArray
  grammar : Kotlin.Grammar

/-- Why a job is not done. -/
inductive Failure where
  /-- The configuration cannot be read. -/
  | config (path : Path) (cause : ConfigError)
  /-- The analysis cannot be set up. -/
  | setup (cause : ConfigError)
  /-- Standard input is no text. -/
  | input
  /-- Standard input cannot be analysed. -/
  | inputAnalysis (name : Path) (cause : AnalysisError)
  /-- The project cannot be analysed. -/
  | analysis (cause : AnalysisError)
  /-- There is a configuration already. -/
  | configExists (path : Path)
  /-- The configuration cannot be written. -/
  | unwritable (path : Path)
deriving DecidableEq, Repr

namespace Failure

/-- The failure in words, without its cause. -/
def message : Failure → String
  | config path _ => s!"Failed to load config: {path.text}"
  | setup _ => "Failed to build analyzer"
  | input => "Failed to read standard input"
  | inputAnalysis name _ => s!"Analysis of {name.text} failed"
  | analysis _ => "Analysis failed"
  | configExists path => s!"Configuration file already exists at {path.text}. Use --force to overwrite."
  | unwritable path => s!"Failed to write {path.text}"

end Failure

/-- What a job leaves when it is done. -/
structure Result where
  output : String
  /-- Whether errors were found. -/
  foundErrors : Bool
  /-- The files that are written, with their texts. -/
  written : List (Path × String)

/-- What a run leaves. -/
structure Outcome where
  exitCode : Nat
  output : String
  error : Option String
  /-- The files that are written, with their texts. -/
  written : List (Path × String)

namespace Surroundings

/-- The directory of the user's own configuration. -/
def personalDirectory (s : Surroundings) : Option Path :=
  (s.configDirectory.map Path.mk).or (s.home.map (·.join ⟨".ktindent"⟩))

end Surroundings

namespace CheckOptions

/-- The configuration with the sizes that were given put in. -/
def adjust (o : CheckOptions) (config : Config) : Config :=
  let set := fun (config : Config) (key : String) (value : Option String) =>
    match value with
    | none => config
    | some v => config.setProperty key v
  set (set config indentSizeKey o.indentSize) continuationIndentSizeKey o.continuationIndentSize

/-- The analysis that is asked for, with every rule. -/
def settings (o : CheckOptions) (config : Config) (grammar : Kotlin.Grammar) : AnalyzerSettings :=
  { root := some o.path
    rules := Rule.all
    frontends := [.kotlin grammar]
    exclude := o.exclude
    config := o.adjust config
    failOnParseError := none }

end CheckOptions

/-- Analyses standard input as if it were the file `name`; the result comes with the source of that file. -/
def checkInput (a : Analyzer) (name : Path) (input : ByteArray) :
    Except Failure (LintResult × (Path → Option String)) :=
  match String.fromUTF8? input with
  | none => .error .input
  | some text =>
    match a.analyzeSource name text.toList with
    | .error cause => .error (.inputAnalysis name cause)
    | .ok violations => .ok (LintResult.sort ⟨violations, 1⟩, fun _ => some text)

/-- Analyses the project; the result comes with the sources of the files below its root. -/
def checkProject (a : Analyzer) (s : Standpoint) : Except Failure (LintResult × (Path → Option String)) :=
  match a.analyze s with
  | .error cause => .error (.analysis cause)
  | .ok result => .ok (result, fun file => s.files.read? (a.root.join file))

/-- Sets up the analysis under the configuration that is found for it. -/
def setUp (s : Surroundings) (given : Option Path) (o : CheckOptions) : Except Failure Analyzer :=
  let source := ConfigSource.find s.files s.workingDirectory o.path given s.personalDirectory
  match source.load s.files s.workingDirectory with
  | .error (path, cause) => .error (.config path cause)
  | .ok config => ((o.settings config s.grammar).build s.workingDirectory).mapError .setup

/-- Reports what an analysis found. -/
def reported (format : ReportFormat) (result : LintResult) (source? : Path → Option String) : Result :=
  { output := result.report source? format ++ "\n", foundErrors := result.hasErrors, written := [] }

/-- Checks a project or a source. -/
def check (s : Surroundings) (given : Option Path) (o : CheckOptions) : Except Failure Result :=
  match setUp s given o with
  | .error failure => .error failure
  | .ok a =>
    (if o.readsInput then checkInput a o.inputName s.input else checkProject a s.toStandpoint).map fun (result, source?) =>
      reported o.format result source?

/-- The name of the configuration that is written. -/
def initName : Path :=
  ⟨"ktindent.toml"⟩

/-- What to do with a first configuration. -/
def initAdvice : String :=
  "Created ktindent.toml\n\nNext steps:\n  1. Edit ktindent.toml to set indent sizes\n  2. Run: ktindent check\n"

/-- Writes a first configuration; one that is there stays, unless `force` is given, and a directory in any case. -/
def init (s : Surroundings) (force : Bool) : Except Failure Result :=
  match s.files.get? (s.workingDirectory.join initName), force with
  | some _, false => .error (.configExists initName)
  | some (.directory _), true => .error (.unwritable initName)
  | _, _ => .ok { output := initAdvice, foundErrors := false, written := [(initName, Config.template)] }

/-- Does what is asked for. -/
def perform (s : Surroundings) (i : Invocation) : Except Failure Result :=
  match i.job with
  | .check options => check s i.config options
  | .listRules => .ok { output := listing, foundErrors := false, written := [] }
  | .init force => init s force

/-- The exit code of a command line that does nothing. -/
def Stop.exitCode : Stop → Nat
  | misuse => 2
  | help => 0
  | version => 0

/-- The output of a command line that does nothing. -/
def Stop.output : Stop → String
  | misuse => ""
  | help => usage
  | version => "ktindent 0.1.0\n"

/-- What a run leaves when nothing is done. -/
def stopped (stop : Stop) : Outcome :=
  { exitCode := stop.exitCode, output := stop.output, error := none, written := [] }

/-- What a run leaves when its job fails. -/
def failed (failure : Failure) : Outcome :=
  { exitCode := 1, output := "", error := some failure.message, written := [] }

/-- What a run leaves when its job is done. -/
def finished (r : Result) : Outcome :=
  { exitCode := if r.foundErrors then 1 else 0, output := r.output, error := none, written := r.written }

/-- Runs a command line. -/
def run (s : Surroundings) (arguments : List String) : Outcome :=
  match Invocation.parse s.config arguments with
  | .error stop => stopped stop
  | .ok i =>
    match perform s i with
    | .error failure => failed failure
    | .ok r => finished r

/-- The files after a run in a working directory. -/
def Outcome.filesAfter (o : Outcome) (files : FileNode) (workingDirectory : Path) : FileNode :=
  o.written.foldl (fun files (path, text) =>
    FileNode.put (.file text.toUTF8) ((workingDirectory.join path).names.map String.ofList) files) files

end IndentLint.Command
