import IndentLint.Config.Reader
import IndentLint.File.Ancestors

/-!
# Finding the configuration

A configuration that is named counts first.  Otherwise the nearest one at or above the directory of the target is
taken, then the one in the user's own directory, and at last the standard configuration.
-/

namespace IndentLint

/-- Where a configuration comes from. -/
inductive ConfigSource where
  /-- It was named. -/
  | named (path : Path)
  /-- It belongs to the project of the target. -/
  | project (path : Path)
  /-- It is the user's own. -/
  | personal (path : Path)
  /-- There is none. -/
  | standard
deriving DecidableEq, Repr

namespace ConfigSource

/-- The names of a project's configuration, the first having precedence within a directory. -/
def projectNames : List Path :=
  [⟨"ktindent.toml"⟩, ⟨".ktindent.toml"⟩]

/-- The name of the user's own configuration. -/
def personalName : Path :=
  ⟨"config.toml"⟩

/-- The configuration file of a project in one directory. -/
def inDirectory? (files : FileNode) (directory : Path) : Option Path :=
  (projectNames.map directory.join).find? files.isFileAt

/-- The configuration file of the project that an absolute path belongs to. -/
def ofProject? (files : FileNode) (target : Path) : Option Path :=
  (if files.isFileAt target then target.parent? else some target).bind fun start =>
    start.ancestors.findSome? (inDirectory? files)

/-- The user's own configuration file, if it exists. -/
def ofUser? (files : FileNode) (workingDirectory : Path) (directory : Option Path) : Option Path :=
  (directory.map (·.join personalName)).filter fun path => files.existsAt (workingDirectory.join path)

/-- The source of the configuration for a target, given what was named and the user's own directory. -/
def find (files : FileNode) (workingDirectory target : Path) (given directory : Option Path) : ConfigSource :=
  match given with
  | some path => named path
  | none =>
    match ofProject? files (target.absolute workingDirectory) with
    | some path => project path
    | none =>
      match ofUser? files workingDirectory directory with
      | some path => personal path
      | none => standard

/-- The path of the configuration. -/
def path? : ConfigSource → Option Path
  | named path => some path
  | project path => some path
  | personal path => some path
  | standard => none

/-- Reads the configuration; the cause of a failure comes with the path. -/
def load (files : FileNode) (workingDirectory : Path) (source : ConfigSource) : Except (Path × ConfigError) Config :=
  match source.path? with
  | none => .ok .default
  | some path => (Config.load files (workingDirectory.join path)).mapError fun cause => (path, cause)

end ConfigSource

end IndentLint
