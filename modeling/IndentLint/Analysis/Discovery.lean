import IndentLint.Analysis.Analyzer
import IndentLint.Ignore.Level

/-!
# Finding the files of a project

The walk visits every directory below the root, hidden ones too, and leaves out what is ignored.  A root that is
itself a file is visited in any case.
-/

namespace IndentLint

/-- A file that was found, by its path and its bytes. -/
structure FoundFile where
  path : Path
  content : ByteArray

mutual

/-- The files at or below a node that is at `path`, the levels being those of the directories above it. -/
def filesBelow (policy : IgnorePolicy) (levels : List IgnoreLevel) (path : Path) : FileNode → List FoundFile
  | .file content => [⟨path, content⟩]
  | .directory entries =>
    let level := IgnoreLevel.ofDirectory policy (Repository.isTop (.directory entries)) (.directory entries)
    filesOfEntries policy (level :: levels) path entries

/-- The files at or below some entries of the directory at `path`. -/
def filesOfEntries (policy : IgnorePolicy) (levels : List IgnoreLevel) (path : Path) :
    List (String × FileNode) → List FoundFile
  | [] => []
  | (name, node) :: rest =>
    (if IgnoreLevel.isIgnored policy levels path name node.isDirectory then []
      else filesBelow policy (levels.map (IgnoreLevel.down name)) (path.join ⟨name⟩) node) ++
      filesOfEntries policy levels path rest

end

/-- The files that a walk from `root` finds; `none` if there is nothing at the root. -/
def Standpoint.walk? (s : Standpoint) (respectGitignore : Bool) (root : Path) : Option (List FoundFile) :=
  let policy := IgnorePolicy.ofStandpoint s respectGitignore
  match s.files.resolve? root with
  | some ((name, node) :: above) => some (filesBelow policy (IgnoreLevel.aboveRoot policy name above) root node)
  | _ => none

/-- A pattern without its pairs of stars. -/
def withoutStarPairs : List Char → List Char
  | [] => []
  | '*' :: '*' :: cs => withoutStarPairs cs
  | c :: cs => c :: withoutStarPairs cs

/-- Whether a pattern leaves out a path: as a glob, or as a part of the path once its pairs of stars are gone. -/
def excludes (pattern : String) (path : Path) : Bool :=
  let part := withoutStarPairs pattern.toList
  Glob.accepts pattern path.text || (!part.isEmpty && Text.containsPart part path.text.toList)

namespace Analyzer

/-- Whether a file is left out. -/
def isExcluded (a : Analyzer) (path : Path) : Bool :=
  a.exclude.any (excludes · path)

/-- The files to analyse, in the order of their paths. -/
def discover (a : Analyzer) (s : Standpoint) : Except AnalysisError (List FoundFile) :=
  match s.walk? a.config.analyzer.respectGitignore a.root with
  | none => .error .walk
  | some found =>
    .ok ((found.filter fun f => a.frontends.any (·.handles f.path) && !a.isExcluded f.path).mergeSort
      fun f g => (f.path.compare g.path).isLE)

/-- Analyses a file that was found. -/
def analyzeFile (a : Analyzer) (f : FoundFile) : Except AnalysisError (List Violation) :=
  match String.fromUTF8? f.content with
  | none => .error (.unreadable "stream did not contain valid UTF-8")
  | some text => a.analyzeSource f.path text.toList

/-- Analyses some files one after the other, up to the first that cannot be analysed. -/
def analyzeFiles (a : Analyzer) (found : List FoundFile) : Except AnalysisError LintResult :=
  (found.mapM a.analyzeFile).map fun violations => ⟨violations.flatten, found.length⟩

/-- Analyses all files of the project. -/
def analyze (a : Analyzer) (s : Standpoint) : Except AnalysisError LintResult :=
  ((a.discover s).bind a.analyzeFiles).map LintResult.sort

end Analyzer

end IndentLint
