import IndentLint.Report.Rendering

/-!
# Switches of the command line

A switch is written as `--` and a word, some also as `-` and a letter.  Which switches are known depends on the part
of the command line: the part before the name of the command, or the part behind it.
-/

namespace IndentLint.Command

/-- A switch. -/
inductive Switch where
  | verbose
  | config
  | help
  | version
  | force
  | format
  | stdin
  | stdinFilename
  | indentSize
  | continuationIndentSize
  | exclude
deriving DecidableEq, Repr

/-- A part of the command line. -/
inductive Section where
  /-- What stands before the name of the command. -/
  | top
  | check
  | listRules
  | init
deriving DecidableEq, Repr

namespace Switch

/-- The word of a switch. -/
def word : Switch → String
  | verbose => "verbose"
  | config => "config"
  | help => "help"
  | version => "version"
  | force => "force"
  | format => "format"
  | stdin => "stdin"
  | stdinFilename => "stdin-filename"
  | indentSize => "indent-size"
  | continuationIndentSize => "continuation-indent-size"
  | exclude => "exclude"

/-- The letter of a switch. -/
def letter? : Switch → Option Char
  | verbose => some 'v'
  | config => some 'c'
  | help => some 'h'
  | version => some 'V'
  | format => some 'f'
  | exclude => some 'e'
  | _ => none

/-- Whether a switch comes with a value. -/
def hasValue : Switch → Bool
  | config | format | stdinFilename | indentSize | continuationIndentSize | exclude => true
  | verbose | help | version | force | stdin => false

/-- Whether a switch may be given more than once. -/
def isRepeatable (s : Switch) : Bool :=
  s = exclude

/-- Whether a switch takes a value; a file must have a name, and a form must be known. -/
def accepts (s : Switch) (value : String) : Bool :=
  match s with
  | config | stdinFilename => !value.isEmpty
  | format => (ReportFormat.ofName? value).isSome
  | _ => true

end Switch

namespace Section

/-- The word that begins a part. -/
def word : Section → String
  | top => "ktindent"
  | check => "check"
  | listRules => "list-rules"
  | init => "init"

/-- The parts that begin with the name of a command. -/
def commands : List Section :=
  [check, listRules, init]

/-- The part that a word begins. -/
def ofCommand? (name : String) : Option Section :=
  commands.find? (·.word == name)

/-- The switches that are known in a part. -/
def switches : Section → List Switch
  | top => [.verbose, .config, .help, .version]
  | check =>
    [.verbose, .config, .help, .format, .stdin, .stdinFilename, .indentSize, .continuationIndentSize, .exclude]
  | listRules => [.verbose, .config, .help]
  | init => [.verbose, .config, .help, .force]

/-- The number of paths that a part takes. -/
def pathLimit : Section → Nat
  | check => 1
  | _ => 0

/-- The switch with a word. -/
def ofWord? (part : Section) (word : List Char) : Option Switch :=
  part.switches.find? fun s => s.word.toList == word

/-- The switch with a letter. -/
def ofLetter? (part : Section) (letter : Char) : Option Switch :=
  part.switches.find? fun s => s.letter? == some letter

end Section

end IndentLint.Command
