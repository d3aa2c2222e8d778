import IndentLint.Rule.Basic

/-!
# Rules written down as data

A script says what a rule does with every element it is interested in: name the element, make some fixed
complaints, give up.
-/

namespace IndentLint

/-- What a rule does, always the same. -/
structure Script where
  /-- The kind of the elements it is interested in; without one it is interested in all. -/
  interest : Option Kind
  /-- Whether it names the element. -/
  namesElement : Bool
  /-- The complaints it makes. -/
  findings : List Finding
  /-- Whether it gives up. -/
  givesUp : Bool
deriving DecidableEq, Repr

namespace Script

/-- What the script makes of one element. -/
def run (s : Script) (rule : String) (c : Cursor) : Except RuleError (List Finding) :=
  if s.interest.any (· != c.kind) then .ok []
  else if s.givesUp then .error (.configurationMissing rule)
  else if s.namesElement then .ok (⟨c.start, c.kind.name, true⟩ :: s.findings)
  else .ok s.findings

/-- The rule of a script; it remembers nothing. -/
def rule (s : Script) (name code : String) (severity : Severity) : Rule :=
  { name, code, description := "", severity, State := Unit, initial := ()
    visit := fun _ c _ => (s.run name c).map fun findings => ((), findings) }

end Script

end IndentLint
