import IndentLint.Rule.Indentation

/-!
# The list of rules

The rules in columns, and below them the settings that they look at.
-/

namespace IndentLint.Command

/-- A text with blanks behind it up to a number of characters. -/
def padded (width : Nat) (text : String) : String :=
  text ++ String.ofList (List.replicate (width - text.length) ' ')

/-- A line of the list of rules. -/
def listingLine (code name description : String) : String :=
  padded 10 code ++ " " ++ padded 25 name ++ " " ++ description

/-- The lines of the list of rules. -/
def listingLines : List String :=
  ["Available rules:", "", listingLine "Code" "Name" "Description", String.ofList (List.replicate 80 '-')] ++
    (Rule.all.map fun r => listingLine r.code r.name r.description) ++
    ["", "Properties:",
      "  " ++ padded 26 indentSizeKey ++ " block indent (default: " ++ toString defaultIndentSize ++
        ", \x60unset\x60 disables)",
      "  " ++ padded 26 continuationIndentSizeKey ++ " continuation indent (default: " ++ indentSizeKey ++ ")",
      "", "Override them per run, e.g.:", "  ktindent check --indent-size 2 --continuation-indent-size 4"]

/-- The list of rules. -/
def listing : String :=
  String.join (listingLines.map (· ++ "\n"))

end IndentLint.Command
