import IndentLint.Rule.Basic

/-!
# The indentation rule

The units are read where the walk meets an element of kind `file`, and hold until it meets the next one.  Every
whitespace token after that is checked under them, unless one of the units is disabled.
-/

namespace IndentLint.Indentation

/-- The code under which the rule reports. -/
def code : String :=
  "KI001"

/-- The name of the rule. -/
def name : String :=
  "indent"

/-- What the rule asks for. -/
def description : String :=
  "Requires indentation to be a multiple of the block or continuation indent"

/-- The units read last, if any were read yet. -/
abbrev State : Type :=
  Option IndentConfig

/-- The complaints about a whitespace element under the units read last. -/
def checkUnder (config : IndentConfig) (c : Cursor) : Except RuleError (List Finding) :=
  match config.units?, c.element with
  | some units, .token .. => (c.check units).mapError .unmeasurable
  | _, _ => .ok []

/-- Takes one element: settings are read at a `file`, whitespace is checked, all else passes. -/
def visit (properties : Properties) (c : Cursor) (state : State) : Except RuleError (State × List Finding) :=
  match c.kind with
  | .file => .ok (some (IndentConfig.ofProperties properties), [])
  | .whitespace =>
    match state with
    | none => .error (.configurationMissing name)
    | some config => (checkUnder config c).map fun findings => (state, findings)
  | _ => .ok (state, [])

/-- Takes elements one after the other, up to the first that cannot be taken.

The state that is left is the one before that element; the complaints made until then are dropped. -/
def visitAll (properties : Properties) : List Cursor → State → State × Except RuleError (List Finding)
  | [], state => (state, .ok [])
  | c :: cs, state =>
    match visit properties c state with
    | .error e => (state, .error e)
    | .ok (next, findings) =>
      let (last, rest) := visitAll properties cs next
      (last, rest.map (findings ++ ·))

/-- The rule with a severity of its own. -/
def rule (severity : Severity) : Rule :=
  { name, code, description, severity, State, initial := none, visit := fun ctx => visit ctx.properties }

end IndentLint.Indentation

namespace IndentLint.Rule

/-- Every rule there is, with its usual severity. -/
def all : List Rule :=
  [Indentation.rule .error]

end IndentLint.Rule
