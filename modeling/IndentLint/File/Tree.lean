import IndentLint.File.Path

/-!
# Trees of files

A file system without links: directories with entries by name, and files with bytes.  A path is followed segment by
segment; every segment, also an empty one and `.`, can only follow a directory.
-/

namespace IndentLint

/-- A file or a directory. -/
inductive FileNode where
  | file (content : ByteArray)
  | directory (entries : List (String × FileNode))

/-- The way to a file or directory: its name and itself, then the same for the directories above it, up to the
root, whose name is empty. -/
abbrev Trail : Type :=
  List (String × FileNode)

namespace FileNode

/-- An empty directory. -/
def empty : FileNode :=
  directory []

/-- Whether it is a directory. -/
def isDirectory : FileNode → Bool
  | file _ => false
  | directory _ => true

/-- The entries of a directory; a file has none. -/
def entries : FileNode → List (String × FileNode)
  | file _ => []
  | directory es => es

/-- The bytes of a file, if it is one. -/
def bytes? : FileNode → Option (List UInt8)
  | file content => some content.data.toList
  | directory _ => none

/-- The text of a file, if it is one and its bytes are UTF-8. -/
def text? : FileNode → Option String
  | file content => String.fromUTF8? content
  | directory _ => none

/-- Puts an entry in place of any of that name. -/
def setEntry (es : List (String × FileNode)) (name : String) (node : FileNode) : List (String × FileNode) :=
  match es with
  | [] => [(name, node)]
  | (n, old) :: rest => if n = name then (name, node) :: rest else (n, old) :: setEntry rest name node

/-- Puts a file or directory at the end of a row of names, making the directories on the way. -/
def put (node : FileNode) : List String → FileNode → FileNode
  | [], _ => node
  | name :: names, tree =>
    directory (setEntry tree.entries name (put node names ((tree.entries.lookup name).getD empty)))

/-- Makes a directory at the end of a row of names unless something is there. -/
def makeDirectory (names : List String) (tree : FileNode) : FileNode :=
  match names with
  | [] => tree
  | name :: rest =>
    directory (setEntry tree.entries name (makeDirectory rest ((tree.entries.lookup name).getD empty)))

/-- Follows one segment of a path. -/
def follow (trail : Trail) (segment : List Char) : Option Trail :=
  match trail with
  | [] => none
  | (_, file _) :: _ => none
  | (name, directory es) :: above =>
    match Component.ofSegment? segment with
    | none => some trail
    | some .up => some (if above.isEmpty then trail else above)
    | some _ =>
      let key := String.ofList segment
      (es.lookup key).map fun node => (key, node) :: (name, directory es) :: above

/-- Follows an absolute path from the root. -/
def resolve? (root : FileNode) (path : Path) : Option Trail :=
  if path.isAbsolute then (Text.pieces '/' path.text.toList).foldlM follow [("", root)] else none

/-- What is at an absolute path. -/
def get? (root : FileNode) (path : Path) : Option FileNode :=
  ((root.resolve? path).bind (·.head?)).map (·.2)

/-- Whether there is a file at an absolute path. -/
def isFileAt (root : FileNode) (path : Path) : Bool :=
  (root.get? path).any (!·.isDirectory)

/-- Whether there is anything at an absolute path. -/
def existsAt (root : FileNode) (path : Path) : Bool :=
  (root.get? path).isSome

/-- The text of the file at an absolute path. -/
def read? (root : FileNode) (path : Path) : Option String :=
  (root.get? path).bind text?

end FileNode

namespace Trail

/-- The names from the root down. -/
def names (trail : Trail) : List String :=
  (trail.map (·.1)).reverse.drop 1

end Trail

end IndentLint
