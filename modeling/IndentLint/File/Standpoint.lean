import IndentLint.File.Tree

/-!
# Files as a user sees them

A user works in some directory, has a home, and keeps settings of programs in a directory that is usually `.config`
at home.  Relative paths start in the working directory.
-/

namespace IndentLint

/-- The files of a machine, seen by a user in a directory. -/
structure Standpoint where
  files : FileNode
  workingDirectory : Path
  /-- The user's home. -/
  home : Option Path
  /-- The directory of the user's settings, if it is not the usual one. -/
  settings : Option Path

namespace Standpoint

/-- The directory of the user's settings. -/
def settingsDirectory (s : Standpoint) : Option Path :=
  s.settings.or (s.home.map (·.join ⟨".config"⟩))

/-- What is at a path. -/
def get? (s : Standpoint) (path : Path) : Option FileNode :=
  s.files.get? (s.workingDirectory.join path)

/-- The bytes of the file at a path. -/
def bytes? (s : Standpoint) (path : Path) : Option (List UInt8) :=
  (s.get? path).bind FileNode.bytes?

/-- A path without the working directory and the separator after it, where its text begins with them. -/
def shorten (s : Standpoint) (path : Path) : Path :=
  let base := s.workingDirectory.text.toList
  let cs := path.text.toList
  if base.isPrefixOf cs then
    match cs.drop base.length with
    | '/' :: rest => ⟨String.ofList rest⟩
    | rest => ⟨String.ofList rest⟩
  else path

end Standpoint

end IndentLint
