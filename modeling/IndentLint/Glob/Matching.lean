import IndentLint.Glob.Pattern
import IndentLint.Text.Endings

/-!
# Matching globs

A pattern matches a text when its tokens can be given parts of the text that make it up in order.  `**` takes
nothing, or a part that ends in `/`, or all that is left.

`matchTokens` says so directly; `marks` answers it for all endings of a text at once, token by token from the last to
the first, so that its cost is the product of both lengths.  `marks_eq_map` says that the two agree.
-/

namespace IndentLint.Glob

/-- Whether a character separates directories. -/
def isSeparator (c : Char) : Bool :=
  c == '/'

/-- What can follow `**`: the text itself, what comes after one of its separators, and nothing. -/
def directoryEndings (cs : List Char) : List (List Char) :=
  cs :: [] :: Text.endingsAfter isSeparator cs

/-- Whether a text is made up of parts that fit the tokens. -/
def matchTokens : List GlobToken → List Char → Bool
  | [], cs => cs.isEmpty
  | .anyRun :: ts, cs => (Text.endings cs).any (matchTokens ts)
  | .anyDirectories :: ts, cs => (directoryEndings cs).any (matchTokens ts)
  | t :: ts, cs => cs.head?.any t.admits && matchTokens ts cs.tail

/-- Which endings of a text begin with a part that fits a token and go on with a marked ending. -/
def marksBefore (cs : List Char) (marks : List Bool) : GlobToken → List Bool
  | .anyRun => Text.afterRun (fun _ => true) cs marks
  | .anyDirectories => (Text.either marks (Text.afterSome isSeparator cs marks)).map (· || marks.getLastD false)
  | t => Text.afterOne t.admits cs marks

/-- Which endings of a text are made up of parts that fit the tokens. -/
def marks (cs : List Char) : List GlobToken → List Bool
  | [] => Text.atEnd cs
  | t :: ts => marksBefore cs (marks cs ts) t

/-- Whether the pattern matches a whole text. -/
def matchesText (g : Glob) (text : String) : Bool :=
  (marks text.toList g.tokens).headD false

/-- Whether a text matches a pattern; one that is not well formed matches nothing. -/
def accepts (pattern text : String) : Bool :=
  match parse pattern with
  | .error _ => false
  | .ok g => g.matchesText text

/-! ### The marks are those of `matchTokens` -/

private theorem endingsAfterRun_true (cs : List Char) : Text.endingsAfterRun (fun _ => true) cs = Text.endings cs := by
  induction cs with
  | nil => rfl
  | cons c cs ih => simp [Text.endingsAfterRun, Text.endings, ih]

theorem marks_eq_map (cs : List Char) (ts : List GlobToken) : marks cs ts = (Text.endings cs).map (matchTokens ts) := by
  induction ts with
  | nil => exact Text.atEnd_eq_map cs
  | cons t ts ih =>
    cases t with
    | anyRun => simp [marks, marksBefore, ih, Text.afterRun_map_endings, endingsAfterRun_true, matchTokens]
    | anyDirectories =>
      simp only [marks, marksBefore, ih, Text.afterSome_map_endings, Text.either_map, List.getLastD_eq_getLast?,
        List.getLast?_map, Text.getLast?_endings, List.map_map, matchTokens, directoryEndings]
      refine List.map_congr_left fun r _ => ?_
      simp only [Function.comp_apply, List.any_cons, Option.map_some, Option.getD_some]
      rw [Bool.or_assoc, Bool.or_comm (List.any _ _)]
    | _ => simp [marks, marksBefore, ih, Text.afterOne_map_endings, matchTokens]

theorem matchesText_eq (g : Glob) (text : String) : g.matchesText text = matchTokens g.tokens text.toList := by
  simp [matchesText, marks_eq_map]

end IndentLint.Glob
