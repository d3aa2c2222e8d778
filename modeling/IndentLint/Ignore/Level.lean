import IndentLint.Ignore.Personal
import IndentLint.Ignore.Repository

/-!
# Which files are ignored

The files of `.ignore` always count, those of version control only below a directory under version control; of two
directories the one nearer to a file has the first say.  `.ignore` comes before `.gitignore`, then the rules that a
repository keeps for itself, and the user's own rules last.
-/

namespace IndentLint

/-- What is the same for a whole walk. -/
structure IgnorePolicy where
  standpoint : Standpoint
  /-- Whether `.gitignore` counts. -/
  respectGitignore : Bool
  /-- The user's own rules. -/
  personal : List IgnoreRule

/-- What one directory says about ignored files. -/
structure IgnoreLevel where
  /-- The names from this directory down to the one that is visited. -/
  below : List String
  /-- The rules of `.ignore`. -/
  own : List IgnoreRule
  /-- The rules of `.gitignore`. -/
  versionControl : List IgnoreRule
  /-- The rules that the repository keeps for itself. -/
  excluded : List IgnoreRule
  /-- Whether the directory is the top of one under version control. -/
  isTop : Bool

namespace IgnorePolicy

/-- The policy of a user. -/
def ofStandpoint (s : Standpoint) (respectGitignore : Bool) : IgnorePolicy :=
  ⟨s, respectGitignore, PersonalIgnore.rules s⟩

end IgnorePolicy

namespace IgnoreLevel

/-- The rules of a file, none if there is no file. -/
def rulesOf (content : Option (List UInt8)) : List IgnoreRule :=
  match content with
  | none => []
  | some bytes => IgnoreRule.ofBytes bytes

/-- The rules in a file of a directory. -/
def rulesIn (directory : FileNode) (name : String) : List IgnoreRule :=
  rulesOf ((directory.entries.lookup name).bind FileNode.bytes?)

/-- What a directory says. -/
def ofDirectory (policy : IgnorePolicy) (isTop : Bool) (directory : FileNode) : IgnoreLevel :=
  { below := []
    own := rulesIn directory ".ignore"
    versionControl := if policy.respectGitignore then rulesIn directory ".gitignore" else []
    excluded := rulesOf (Repository.excludeFile? policy.standpoint directory)
    isTop }

/-- The same, seen from a directory one step further down. -/
def down (name : String) (l : IgnoreLevel) : IgnoreLevel :=
  { l with below := l.below ++ [name] }

/-- What some rules of this directory say about an entry of the visited directory. -/
def verdict? (l : IgnoreLevel) (rules : List IgnoreRule) (name : String) (isDirectory : Bool) : Option Bool :=
  IgnoreRule.verdict? rules (Text.joinPieces '/' ((l.below ++ [name]).map String.toList)) isDirectory

/-- The levels up to the first top of version control, that one included; none where there is no such top. -/
def underVersionControl (levels : List IgnoreLevel) : List IgnoreLevel :=
  if levels.any (·.isTop) then
    levels.takeWhile (!·.isTop) ++ (levels.dropWhile (!·.isTop)).take 1
  else
    []

/-- What the user's own rules say about an entry at a path; they count only below a top of version control, and see
the path from the working directory. -/
def personalVerdict? (policy : IgnorePolicy) (levels : List IgnoreLevel) (path : Path) (isDirectory : Bool) :
    Option Bool :=
  if levels.any (·.isTop) then
    IgnoreRule.verdict? policy.personal (policy.standpoint.shorten path).text.toList isDirectory
  else
    none

/-- Whether an entry of the directory at `path` is ignored, the levels being listed from that directory up. -/
def isIgnored (policy : IgnorePolicy) (levels : List IgnoreLevel) (path : Path) (name : String)
    (isDirectory : Bool) : Bool :=
  let tracked := underVersionControl levels
  let own := levels.findSome? fun l => l.verdict? l.own name isDirectory
  let versionControl := tracked.findSome? fun l => l.verdict? l.versionControl name isDirectory
  let excluded := tracked.findSome? fun l => l.verdict? l.excluded name isDirectory
  let personal := personalVerdict? policy levels (path.join ⟨name⟩) isDirectory
  ((((own.or versionControl).or excluded).or personal)).getD false

/-- What the directories above a root say, nearest first, given the trail of these directories. -/
def aboveRoot (policy : IgnorePolicy) (name : String) : Trail → List IgnoreLevel
  | [] => []
  | (n, directory) :: above =>
    { ofDirectory policy (policy.respectGitignore && Repository.isTop directory) directory with below := [name] } ::
      (aboveRoot policy n above).map (down name)

end IgnoreLevel

end IndentLint
