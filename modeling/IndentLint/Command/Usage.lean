import IndentLint.Command.Switch

/-!
# Help on the command line

The commands with the switches that each of them knows, as they are declared.
-/

namespace IndentLint.Command

/-- How a switch is written. -/
def Switch.usage (s : Switch) : String :=
  let letter := match s.letter? with
    | some c => "-" ++ String.ofList [c] ++ "|"
    | none => ""
  " [" ++ letter ++ "--" ++ s.word ++ (if s.hasValue then " <VALUE>" else "") ++ "]"

/-- How a part of the command line is written. -/
def Section.usage (part : Section) : String :=
  part.word ++ String.join (part.switches.map Switch.usage) ++ if 0 < part.pathLimit then " [PATH]" else ""

/-- How the command line is written. -/
def usage : String :=
  "Usage: " ++ Section.top.usage ++ " <COMMAND>\n\nCommands:\n" ++
    String.join (Section.commands.map fun part => "  " ++ part.usage ++ "\n")

end IndentLint.Command
