import IndentLint.Config.Basic

/-!
# The configuration to start from

The text of a first configuration, which names every field with its usual value.
-/

namespace IndentLint.Config

/-- The lines of a first configuration. -/
def templateLines : List String :=
  ["# ktindent configuration",
   "",
   "[analyzer]",
   "# Root directory to analyze (default: current directory)",
   "# root = \"./src\"",
   "",
   "# Glob patterns to exclude from analysis",
   "exclude = [",
   "    \"**/build/**\",",
   "    \"**/.gradle/**\",",
   "]",
   "",
   "# Respect .gitignore files",
   "respect_gitignore = true",
   "",
   "# Abort when a file does not parse cleanly",
   "fail_on_parse_error = false",
   "",
   "# Properties applied to every file",
   "[properties]",
   "indent_size = 4",
   "continuation_indent_size = 4",
   "",
   "# Properties for matching files, later entries win",
   "# [[overrides]]",
   "# files = [\"**/*.kts\"]",
   "# properties = \x7b continuation_indent_size = 8 \x7d",
   "",
   "[rules.indent]",
   "enabled = true",
   "# severity = \"warning\"  # Override default severity"]

/-- The text of a first configuration. -/
def template : String :=
  String.join (templateLines.map (· ++ "\n"))

end IndentLint.Config
