import IndentLint.Text.Pieces

/-!
# Paths

A path is text in which `/` separates segments.  Its components are the segments that mean something: repeated and
trailing separators do not count, nor does a `.` that is not the very first segment.  Paths are compared and
stripped component by component, while the text between the components is kept as it was written.
-/

namespace IndentLint

/-- A meaningful segment of a path. -/
inductive Component where
  /-- The leading `/`. -/
  | root
  /-- A leading `.`. -/
  | here
  /-- `..` -/
  | up
  | name (chars : List Char)
deriving DecidableEq, Repr

/-- The text of a path. -/
structure Path where
  text : String
deriving DecidableEq, Repr

/-- A path cut at its separators, the leading `/` or `.` set apart. -/
structure Segments where
  head : Option Component
  body : List (List Char)
deriving DecidableEq, Repr

namespace Component

/-- The component of a segment; an empty segment and `.` have none. -/
def ofSegment? : List Char → Option Component
  | [] => none
  | ['.'] => none
  | ['.', '.'] => some up
  | segment => some (name segment)

/-- The order of components: the root first, then `.`, `..` and the names. -/
def rank : Component → Nat
  | root => 0
  | here => 1
  | up => 2
  | name _ => 3

/-- The characters that order components of one rank. -/
def chars : Component → List Char
  | name cs => cs
  | _ => []

/-- Compares components by rank, names by their characters. -/
def compare (a b : Component) : Ordering :=
  (Ord.compare a.rank b.rank).then (compareOfLessAndEq a.chars b.chars)

end Component

namespace Path

/-- The path of a list of segments. -/
def ofSegments (body : List (List Char)) : Path :=
  ⟨String.ofList (Text.joinPieces '/' body)⟩

/-- Cuts a path at its separators. -/
def segments (p : Path) : Segments :=
  match Text.pieces '/' p.text.toList with
  | [] :: s :: rest => ⟨some .root, s :: rest⟩
  | ['.'] :: rest => ⟨some .here, rest⟩
  | body => ⟨none, body⟩

/-- The components of a path. -/
def components (p : Path) : List Component :=
  p.segments.head.toList ++ p.segments.body.filterMap Component.ofSegment?

/-- Compares paths component by component. -/
def compare (p q : Path) : Ordering :=
  List.compareLex Component.compare p.components q.components

/-- Whether a path starts at the root. -/
def isAbsolute (p : Path) : Bool :=
  p.segments.head = some .root

/-- Whether a segment is no component. -/
def isSilent (segment : List Char) : Bool :=
  (Component.ofSegment? segment).isNone

/-- Drops segments up to and with the `n`th component among them. -/
def dropComponents : Nat → List (List Char) → List (List Char)
  | 0, body => body
  | _ + 1, [] => []
  | n + 1, s :: rest => if isSilent s then dropComponents (n + 1) rest else dropComponents n rest

/-- Drops the segments at the end that are no components. -/
def trimEndSegments (body : List (List Char)) : List (List Char) :=
  (body.reverse.dropWhile isSilent).reverse

/-- The path of some segments, without the separators and dots at its end. -/
def ofTrimmed (s : Segments) : Path :=
  match s with
  | ⟨some .root, body⟩ => ofSegments ([] :: match trimEndSegments body with
    | [] => [[]]
    | name :: rest => name :: rest)
  | ⟨some .here, body⟩ => ofSegments (['.'] :: trimEndSegments body)
  | ⟨_, body⟩ => ofSegments (trimEndSegments body)

/-- A path without the separators and dots at its end. -/
def trimmedEnd (p : Path) : Path :=
  ofTrimmed p.segments

/-- What is left of a path after the components of `base`, where these come first in it. -/
def strip? (p base : Path) : Option Path :=
  if base.components.isPrefixOf p.components then
    match base.components.length with
    | 0 => some p.trimmedEnd
    | n + 1 =>
      let body := dropComponents (n + 1 - p.segments.head.toList.length) p.segments.body
      some (ofSegments (trimEndSegments (body.dropWhile isSilent)))
  else
    none

/-- The names on the way along a path from the root, `..` going one name back. -/
def names (p : Path) : List (List Char) :=
  p.components.foldl (fun names c =>
    match c with
    | .name cs => names ++ [cs]
    | .up => names.dropLast
    | _ => names) []

/-- The name at the end of a path. -/
def fileName? (p : Path) : Option (List Char) :=
  match p.components.getLast? with
  | some (.name cs) => some cs
  | _ => none

/-- The part of a file name after its last dot, unless that dot begins the name. -/
def extensionOfName? (name : List Char) : Option (List Char) :=
  let after := name.reverse.takeWhile (· != '.')
  if after.length + 1 < name.length then some after.reverse else none

/-- The extension of the file name. -/
def extension? (p : Path) : Option (List Char) :=
  p.fileName?.bind extensionOfName?

/-- The path `q` seen from the directory `p`; an absolute `q` is itself. -/
def join (p q : Path) : Path :=
  if q.isAbsolute then q
  else if p.text.isEmpty || p.text.toList.getLast? = some '/' then ⟨p.text ++ q.text⟩
  else ⟨p.text ++ "/" ++ q.text⟩

/-- A path as seen from `root`; the root itself is seen by its file name, a path outside the root as it is. -/
def relativeTo (p root : Path) : Path :=
  match p.strip? root with
  | none => p
  | some rest =>
    if rest.text.isEmpty then
      match p.fileName? with
      | some cs => ⟨String.ofList cs⟩
      | none => p
    else
      rest

end Path

end IndentLint
