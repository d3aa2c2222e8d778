import IndentLint.Config.Properties
import IndentLint.Decimal.Shortest
import IndentLint.File.Path
import IndentLint.Glob.Matching
import IndentLint.Rule.Basic
import IndentLint.Toml.Value

/-!
# Configuration

A configuration says which files are analysed, which settings apply to each of them, and how rules are treated.
The settings of a file are those for every file, with those of each override whose globs match the file on top, a
later override over an earlier one.
-/

namespace IndentLint

/-- What is analysed. -/
structure AnalyzerConfig where
  /-- The directory in which files are looked for. -/
  root : Path
  /-- Globs of the files that are left out. -/
  exclude : List String
  /-- Whether files that are ignored by version control are left out. -/
  respectGitignore : Bool
  /-- Whether a file with syntax errors ends the analysis. -/
  failOnParseError : Bool
deriving DecidableEq, Repr

/-- Settings for the files that some globs match. -/
structure Override where
  /-- The globs, matched against the path as seen from the root. -/
  files : List String
  properties : Toml.Table

/-- How one rule is treated. -/
structure RuleConfig where
  enabled : Option Bool
  severity : Option Severity
deriving DecidableEq, Repr

/-- The configuration of an analysis. -/
structure Config where
  analyzer : AnalyzerConfig
  /-- Settings for every file. -/
  properties : Toml.Table
  overrides : List Override
  rules : List (String × RuleConfig)

/-- Why there is no configuration. -/
inductive ConfigError where
  /-- The file cannot be read. -/
  | unreadable (path : Path)
  /-- The text is no TOML or holds values of the wrong type. -/
  | malformed
  /-- A pattern of an override is no glob. -/
  | invalidGlob (pattern : String) (cause : GlobError)
deriving DecidableEq, Repr

namespace ConfigError

/-- The cause in words. -/
def message : ConfigError → String
  | unreadable path => s!"Failed to read config file {path.text}"
  | malformed => "Failed to parse config"
  | invalidGlob pattern cause => "Invalid glob pattern \x60" ++ pattern ++ "\x60: " ++ cause.message

end ConfigError

namespace AnalyzerConfig

/-- The current directory without build output, ignored files left out. -/
def default : AnalyzerConfig :=
  { root := ⟨"."⟩, exclude := ["**/build/**", "**/.gradle/**"], respectGitignore := true, failOnParseError := false }

end AnalyzerConfig

namespace Toml

/-- The text of a setting; only text, numbers and truth values have one. -/
def Value.scalarText? : Value → Option String
  | .string text => some text
  | .integer n => some (toString n)
  | .float x => some x.text
  | .boolean true => some "true"
  | .boolean false => some "false"
  | _ => none

end Toml

namespace Properties

/-- The settings of a table: its keys whose values have a text. -/
def ofTable (table : Toml.Table) : Properties :=
  ofList (table.filterMap fun e => e.2.scalarText?.map fun text => (e.1, text))

end Properties

namespace Override

/-- Whether one of the globs matches a path. -/
def appliesTo (o : Override) (path : Path) : Bool :=
  o.files.any fun pattern => Glob.accepts pattern path.text

end Override

namespace Config

/-- The configuration where none is given. -/
def default : Config :=
  { analyzer := .default, properties := [], overrides := [], rules := [] }

/-- Checks the globs of a list of patterns; the first fault is reported. -/
def checkPatterns : List String → Except ConfigError Unit
  | [] => .ok ()
  | pattern :: rest =>
    match Glob.parse pattern with
    | .error e => .error (.invalidGlob pattern e)
    | .ok _ => checkPatterns rest

/-- Checks the globs of all overrides. -/
def validate (config : Config) : Except ConfigError Unit :=
  checkPatterns (config.overrides.flatMap (·.files))

/-- Sets a value for every file in place of any value under that key, whose case does not matter. -/
def setProperty (config : Config) (key value : String) : Config :=
  { config with
    properties := (key.toLower, .string value) :: config.properties.filter (·.1.toLower != key.toLower) }

/-- The settings of a file, given by its path as seen from the root. -/
def propertiesFor (config : Config) (path : Path) : Properties :=
  (config.overrides.filter (·.appliesTo path)).foldl (fun p o => p.extend (.ofTable o.properties))
    (.ofTable config.properties)

/-- Whether a rule is used; every rule is, unless it is switched off. -/
def isRuleEnabled (config : Config) (rule : String) : Bool :=
  ((config.rules.lookup rule).bind (·.enabled)).getD true

/-- The severity that the configuration gives to a rule. -/
def ruleSeverity? (config : Config) (rule : String) : Option Severity :=
  (config.rules.lookup rule).bind (·.severity)

end Config

end IndentLint
