import IndentLint.File.Path
import IndentLint.Kotlin.ParseTree
import IndentLint.Kotlin.Walk
import IndentLint.Syntax.Gap

/-!
# Frontends

A frontend makes syntax trees out of the sources of one language.  It is chosen by the extension of a file.
-/

namespace IndentLint

/-- The syntax tree of a source. -/
structure Parsed where
  tree : Element
  /-- Whether errors in the source had to be skipped. -/
  hasSyntaxErrors : Bool

/-- Why there is no syntax tree. -/
inductive FrontendError where
  /-- The grammar of the language cannot be used. -/
  | grammar (language detail : String)
  /-- The grammar gives no tree. -/
  | noTree (language : String)
  /-- The tree of the grammar cannot be lowered. -/
  | lowering (language : String) (fault : Kotlin.LoweringFault)
deriving DecidableEq, Repr

namespace FrontendError

/-- The cause in words. -/
def message : FrontendError → String
  | grammar language detail => s!"failed to load {language} grammar: {detail}"
  | noTree language => s!"{language} parser returned no tree"
  | lowering language fault => s!"{language} tree cannot be lowered: {fault.message}"

end FrontendError

/-- What makes trees out of the sources of a language. -/
structure Frontend where
  /-- The name of the language. -/
  language : String
  /-- The extensions of its files, each with a dot. -/
  extensions : List String
  parse : List Char → Except FrontendError Parsed

namespace Frontend

/-- Whether a file has one of the extensions. -/
def handles (f : Frontend) (path : Path) : Bool :=
  match path.extension? with
  | none => false
  | some ext => f.extensions.any fun e => e.toList == '.' :: ext

/-- Kotlin sources, parsed by a given grammar. -/
def kotlin (grammar : Kotlin.Grammar) : Frontend :=
  { language := "kotlin"
    extensions := [".kt", ".kts"]
    parse := fun source =>
      match grammar source with
      | none => .error (.noTree "kotlin")
      | some p =>
        match p.root.build source with
        | .error fault => .error (.lowering "kotlin" fault)
        | .ok tree => .ok ⟨tree, p.hasErrors⟩ }

/-- Plain text, whose words are tokens; `!!` in it is an error. -/
def plain (language : String) (extensions : List String) : Frontend :=
  { language, extensions
    parse := fun source => .ok ⟨.node .file (Element.gap source), Text.containsPart ['!', '!'] source⟩ }

/-- A language all of whose sources have the same outcome. -/
def constant (language : String) (extensions : List String) (outcome : Except FrontendError Parsed) : Frontend :=
  { language, extensions, parse := fun _ => outcome }

end Frontend

end IndentLint
