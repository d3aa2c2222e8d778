import IndentLint.Command.Arguments
import IndentLint.File.Path

/-!
# What a command line asks for

A command line names one command, with switches before and behind its name.  The configuration may be named on both
sides, in which case the one behind counts, or in the environment.
-/

namespace IndentLint.Command

/-- How a project or a source is checked. -/
structure CheckOptions where
  /-- The file or directory to check. -/
  path : Path
  format : ReportFormat
  /-- Whether the source is read from standard input. -/
  readsInput : Bool
  /-- The name of the source on standard input. -/
  inputName : Path
  indentSize : Option String
  continuationIndentSize : Option String
  /-- Globs of files to leave out. -/
  exclude : List String
deriving DecidableEq, Repr

/-- What is to be done. -/
inductive Job where
  | check (options : CheckOptions)
  | listRules
  /-- Writes a first configuration, if asked for also over an older one. -/
  | init (force : Bool)
deriving DecidableEq, Repr

/-- A command line that makes sense. -/
structure Invocation where
  /-- The configuration that was named. -/
  config : Option Path
  job : Job
deriving DecidableEq, Repr

namespace CheckOptions

/-- The options that were read, with the usual values for the others. -/
def ofReading (r : Reading) : CheckOptions :=
  { path := ⟨r.paths.headD "."⟩
    format := ((r.value? .format).bind ReportFormat.ofName?).getD .text
    readsInput := r.has .stdin
    inputName := ⟨(r.value? .stdinFilename).getD "stdin.kt"⟩
    indentSize := r.value? .indentSize
    continuationIndentSize := r.value? .continuationIndentSize
    exclude := r.values .exclude }

end CheckOptions

namespace Job

/-- The job of a part that was read; the part before its name has none. -/
def ofReading? (r : Reading) : Section → Option Job
  | .top => none
  | .check => some (check (.ofReading r))
  | .listRules => some listRules
  | .init => some (init (r.has .force))

end Job

namespace Invocation

/-- The outcome of asking for help with the words behind: at most one command, or help itself. -/
def helpOutcome : List String → Stop
  | [] => .help
  | [name] => if name = "help" || (Section.ofCommand? name).isSome then .help else .misuse
  | _ => .misuse

/-- The configuration that is named before the command, behind it, or in the environment.

The environment is looked at unless both sides name one, and must not name a file without a name. -/
def configOf (top part : Reading) (environment : Option String) : Except Stop (Option Path) :=
  if environment = some "" && !(top.has .config && part.has .config) then .error .misuse
  else .ok ((((part.value? .config).or (top.value? .config)).or environment).map Path.mk)

/-- Reads a command line; `environment` is the configuration that the environment names. -/
def parse (environment : Option String) (arguments : List String) : Except Stop Invocation := do
  let (top, rest) ← Reading.empty.readUpToPlain .top arguments
  match rest with
  | [] => .error .misuse
  | name :: rest =>
    if name = "help" then .error (helpOutcome rest)
    else
      match Section.ofCommand? name with
      | none => .error .misuse
      | some part =>
        let r ← Reading.readAll part part.pathLimit .empty rest
        let top ← top.settle
        let config ← configOf top r environment
        match Job.ofReading? r part with
        | none => .error .misuse
        | some job => return { config, job }

end Invocation

end IndentLint.Command
