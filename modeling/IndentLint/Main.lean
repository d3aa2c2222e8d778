import IndentLint.Command.Run
import IndentLint.Json.Reader
import IndentLint.Kotlin.Encoding

/-!
# The program

The outer layer: it reads the files, standard input and the environment, runs the command line on them, and writes
what the run leaves.  Sources are parsed elsewhere: the variable `KTINDENT_PARSES` names a file with an object that
holds the parse of each source under its path, that of standard input under `<stdin>`.
-/

namespace IndentLint.Program

/-- The place of an absolute path. -/
def place (path : Path) : IO.FS.DirEntry :=
  ⟨"/", path.text⟩

/-- Reads a file, or a directory with all below it; links below it are passed over. -/
partial def readAll (entry : IO.FS.DirEntry) : IO FileNode := do
  if ← entry.path.isDir then
    let mut entries := []
    for e in ← entry.path.readDir do
      if (← e.path.symlinkMetadata).type != .symlink then
        entries := (e.fileName, ← readAll e) :: entries
    return .directory entries.reverse
  else
    return .file (← IO.FS.readBinFile entry.path)

/-- Adds a file or an empty directory for what there is at an absolute path. -/
def addFile (files : FileNode) (path : Path) : IO FileNode := do
  try
    if ← (place path).path.isDir then
      return FileNode.makeDirectory (path.names.map String.ofList) files
    let content ← IO.FS.readBinFile path.text
    return FileNode.put (.file content) (path.names.map String.ofList) files
  catch _ =>
    return files

/-- Adds a file or a directory with all below it, if there is one at an absolute path. -/
def addAll (files : FileNode) (path : Path) : IO FileNode := do
  if ← (place path).path.pathExists then
    return FileNode.put (← readAll (place path)) (path.names.map String.ofList) files
  else
    return files

/-- The files of a directory that count also for what is below it. -/
def guides : List Path :=
  [⟨".ignore"⟩, ⟨".gitignore"⟩, ⟨".git"⟩, ⟨".git/info/exclude"⟩, ⟨".jj"⟩] ++ ConfigSource.projectNames

/-- Adds a directory, if there is one at an absolute path, with the files that count also for what is below it. -/
def addGuides (files : FileNode) (path : Path) : IO FileNode := do
  if ← (place path).path.isDir then
    (guides.map path.join).foldlM addFile (FileNode.makeDirectory (path.names.map String.ofList) files)
  else
    return files

/-- The paths at which a run looks for single files. -/
def singleFiles (s : Command.Surroundings) (i : Command.Invocation) : List Path :=
  i.config.toList ++ (s.personalDirectory.map (·.join ConfigSource.personalName)).toList ++ [Command.initName] ++
    (s.home.map (·.join ⟨".gitconfig"⟩)).toList ++ (s.settingsDirectory.map (·.join ⟨"git/config"⟩)).toList

/-- The contents of all files `.git` in a tree. -/
partial def repositoryLinks (node : FileNode) : List (List UInt8) :=
  node.entries.flatMap fun (name, entry) =>
    match entry with
    | .file content => if name == ".git" then [content.data.toList] else []
    | .directory _ => repositoryLinks entry

/-- Adds the files by which a linked repository counts. -/
def addLinked (s : Command.Surroundings) (files : FileNode) (content : List UInt8) : IO FileNode := do
  let add := fun (files : FileNode) (path : Path) => addFile files (s.workingDirectory.join path)
  match (Repository.firstLine? content).bind Repository.linkTarget? with
  | none => return files
  | some target =>
    let files ← add files (target.join ⟨"commondir"⟩)
    match Repository.linked? { s with files } content with
    | none => return files
    | some directory => add files (directory.join ⟨"info/exclude"⟩)

/-- The files that a run looks at. -/
def readFiles (s : Command.Surroundings) (i : Command.Invocation) : IO FileNode := do
  let target : Path := match i.job with
    | .check options => options.path
    | _ => ⟨"."⟩
  let target := target.absolute s.workingDirectory
  let above := (target.ancestors ++ s.workingDirectory.ancestors).reverse
  let files ← match i.job with
    | .check options => if options.readsInput then pure FileNode.empty else addAll .empty target
    | _ => pure FileNode.empty
  let files ← above.foldlM addGuides files
  let files ← ((singleFiles s i).map s.workingDirectory.join).foldlM addFile files
  let files ← (repositoryLinks files).foldlM (addLinked s) files
  match PersonalIgnore.path? { s with files } with
  | none => return files
  | some path => addFile files (s.workingDirectory.join path)

/-- Reads standard input to its end. -/
partial def readInput (stream : IO.FS.Stream) (before : ByteArray) : IO ByteArray := do
  let bytes ← stream.read 65536
  if bytes.isEmpty then return before else readInput stream (before ++ bytes)

/-- The grammar that the environment names. -/
def readGrammar (files : FileNode) (workingDirectory : Path) (input : ByteArray) : IO Kotlin.Grammar := do
  match ← IO.getEnv "KTINDENT_PARSES" with
  | none => return fun _ => none
  | some name =>
    let text ← IO.FS.readFile name
    let source? := fun (path : String) =>
      if path == "<stdin>" then String.fromUTF8? input else files.read? (workingDirectory.join ⟨path⟩)
    return Kotlin.Grammar.ofJson source? ((Json.read? text.toList).getD .null)

/-- What a run can see, apart from files, input and grammar. -/
def surroundings : IO Command.Surroundings := do
  return {
    files := .empty
    workingDirectory := ⟨toString (← IO.currentDir)⟩
    home := (← IO.getEnv "HOME").map Path.mk
    settings := ((← IO.getEnv "XDG_CONFIG_HOME").filter (!·.isEmpty)).map Path.mk
    config := ← IO.getEnv "KTINDENT_CONFIG"
    configDirectory := ← IO.getEnv "KTINDENT_CONFIG_DIR"
    input := .empty
    grammar := fun _ => none }

/-- Adds files, input and grammar for a command line that makes sense. -/
def complete (s : Command.Surroundings) (i : Command.Invocation) : IO Command.Surroundings := do
  let files ← readFiles s i
  let input ← match i.job with
    | .check options => if options.readsInput then readInput (← IO.getStdin) .empty else pure .empty
    | _ => pure .empty
  return { s with files, input, grammar := ← readGrammar files s.workingDirectory input }

/-- Writes what a run leaves. -/
def finish (o : Command.Outcome) : IO UInt32 := do
  for (path, text) in o.written do
    try
      IO.FS.writeFile path.text text
    catch _ =>
      IO.eprintln s!"Error: {(Command.Failure.unwritable path).message}"
      return 1
  IO.print o.output
  match o.error with
  | some message => IO.eprintln s!"Error: {message}"
  | none => if o.exitCode == 2 then IO.eprint Command.usage
  return o.exitCode.toUInt32

end IndentLint.Program

open IndentLint in
/-- Runs the command line. -/
def main (arguments : List String) : IO UInt32 := do
  let s ← Program.surroundings
  match Command.Invocation.parse s.config arguments with
  | .error stop => Program.finish (Command.stopped stop)
  | .ok i => Program.finish (Command.run (← Program.complete s i) arguments)
