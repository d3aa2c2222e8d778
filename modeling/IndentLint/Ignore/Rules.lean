import IndentLint.Ignore.Matching
import IndentLint.Text.Blank

/-!
# Ignore files

Each line of an ignore file is a rule: a pattern, after `!` a pattern of files to keep.  A pattern without an inner
separator matches at any depth, any other only from the directory of the ignore file on; one that ends in a separator
matches directories only.  The last rule that matches a path decides.
-/

namespace IndentLint

/-- A line of an ignore file. -/
structure IgnoreRule where
  tokens : List IgnoreToken
  /-- Whether it keeps what it matches. -/
  keeps : Bool
  /-- Whether it matches directories only. -/
  directoriesOnly : Bool

namespace IgnoreRule

/-- A line without its blanks at the end; a last blank after a backslash stays. -/
def trimLine (line : List Char) : List Char :=
  match line.reverse with
  | ' ' :: '\\' :: _ => line
  | _ => Text.trimEnd line

/-- Whether a pattern begins with a component `**`. -/
def startsAnywhere (pattern : List Char) : Bool :=
  "**/".toList.isPrefixOf pattern || pattern == "**".toList

/-- The pattern with what its place implies: without a separator it matches at any depth, and below `**` at the end
only what is inside. -/
def completed (anchored : Bool) (pattern : List Char) : List Char :=
  let pattern :=
    if !anchored && !pattern.contains '/' && !startsAnywhere pattern then "**/".toList ++ pattern else pattern
  if "/**".toList.isSuffixOf pattern then pattern ++ "/*".toList else pattern

/-- The rule of a pattern. -/
def ofPattern? (keeps anchored : Bool) (pattern : List Char) : Option IgnoreRule :=
  match pattern.reverse with
  | '/' :: rest =>
    let rest := match rest with
      | '\\' :: before => before
      | rest => rest
    (IgnoreToken.read? (completed anchored rest.reverse)).map fun tokens => ⟨tokens, keeps, true⟩
  | _ => (IgnoreToken.read? (completed anchored pattern)).map fun tokens => ⟨tokens, keeps, false⟩

/-- The rule of a pattern that may begin with a separator, which ties it to the directory of the ignore file. -/
def ofAnchor? (keeps : Bool) : List Char → Option IgnoreRule
  | '/' :: pattern => ofPattern? keeps true pattern
  | pattern => ofPattern? keeps false pattern

/-- The rule of a line; comments, blank lines and faulty patterns are none. -/
def ofLine? (line : List Char) : Option IgnoreRule :=
  if line.head? = some '#' then none
  else
    match trimLine line with
    | [] => none
    | '\\' :: '!' :: rest => ofPattern? false false ('!' :: rest)
    | '\\' :: '#' :: rest => ofPattern? false false ('#' :: rest)
    | '!' :: rest => ofAnchor? true rest
    | line => ofAnchor? false line

/-- The rules of some lines; byte order marks in front of the first do not count. -/
def ofLines : List (List Char) → List IgnoreRule
  | [] => []
  | first :: rest => (first.dropWhile (· == '\ufeff') :: rest).filterMap ofLine?

/-- The rules of an ignore file; from the first line on that is no text it does not count. -/
def ofBytes (content : List UInt8) : List IgnoreRule :=
  ofLines (Text.decodeLines (Text.byteLines content))

/-- Whether the rule is about a path, seen from the directory of the ignore file. -/
def isAbout (r : IgnoreRule) (path : List Char) (isDirectory : Bool) : Bool :=
  (!r.directoriesOnly || isDirectory) && IgnoreToken.matchesPath r.tokens (Text.encode path)

/-- Whether a path is ignored, as far as some rules say anything about it. -/
def verdict? (rules : List IgnoreRule) (path : List Char) (isDirectory : Bool) : Option Bool :=
  (rules.reverse.find? (·.isAbout path isDirectory)).map fun r => !r.keeps

end IgnoreRule

end IndentLint
