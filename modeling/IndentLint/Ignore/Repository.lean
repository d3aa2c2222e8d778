import IndentLint.File.Standpoint
import IndentLint.Text.Utf8

/-!
# Directories under version control

The top directory of a repository holds `.git` or `.jj`.  Where `.git` is a file instead of a directory, the repository
is kept elsewhere: the file names a directory, in which the file `commondir` names the one that is meant.  There, under
`info/exclude`, a repository keeps rules about ignored files for itself.
-/

namespace IndentLint.Repository

/-- Whether a directory is the top of one under version control. -/
def isTop (directory : FileNode) : Bool :=
  (directory.entries.lookup ".git").isSome || (directory.entries.lookup ".jj").isSome

/-- The first line of a file, if it has one and that is text. -/
def firstLine? (content : List UInt8) : Option (List Char) :=
  (Text.byteLines content).head?.bind Text.decode?

/-- What comes after the word that opens the file `.git`. -/
def linkTarget? (line : List Char) : Option Path :=
  let word := "gitdir: ".toList
  if word.isPrefixOf line then some ⟨String.ofList (line.drop word.length)⟩ else none

/-- The directory of a repository that the file `.git` with this content is linked to. -/
def linked? (s : Standpoint) (content : List UInt8) : Option Path := do
  let place ← (firstLine? content).bind linkTarget?
  let line ← (s.bytes? (place.join ⟨"commondir"⟩)).bind firstLine?
  let common : Path := ⟨String.ofList line⟩
  return if line.head? = some '.' then place.join common else common

/-- The rules about ignored files that the repository of a top directory keeps for itself. -/
def excludeFile? (s : Standpoint) (directory : FileNode) : Option (List UInt8) :=
  match directory.entries.lookup ".git" with
  | none => none
  | some (.file content) => (linked? s content.data.toList).bind fun place => s.bytes? (place.join ⟨"info/exclude"⟩)
  | some (.directory entries) =>
    (entries.lookup "info").bind fun info => (info.entries.lookup "exclude").bind FileNode.bytes?

end IndentLint.Repository
