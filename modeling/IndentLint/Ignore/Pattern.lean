import IndentLint.Text.Utf8

/-!
# Patterns of ignore files

The patterns of ignore files are globs of their own kind.  `?` and `*` stay within one component of a path; `**`
between separators, at the start or at the end crosses them; classes and alternatives in braces may be used, and a
backslash takes the meaning from the character after it.  A pattern is text, but the names of files are bytes to it:
`?` and a class stand for one byte, and a character is the bytes that write it.
-/

namespace IndentLint

/-- One step of a pattern. -/
inductive IgnoreToken where
  | byte (b : UInt8)
  /-- Any byte but a separator. -/
  | anyByte
  /-- Any bytes but separators. -/
  | anyRun
  /-- `**` and a separator at the start. -/
  | leadingDirectories
  /-- A separator, `**` and another separator. -/
  | innerDirectories
  /-- A separator and `**` at the end. -/
  | everythingBelow
  | within (negated : Bool) (ranges : List (UInt8 × UInt8))
  /-- One of several rows of tokens; without rows it takes nothing. -/
  | oneOf (branches : List (List IgnoreToken))
deriving Repr

/-- A group in braces that is still open, or the pattern as a whole: the finished branches and the tokens of the
last branch, newest first. -/
structure OpenGroup where
  branches : List (List IgnoreToken)
  current : List IgnoreToken

/-- A pattern as far as it is read: the innermost open group and the groups around it. -/
structure OpenPattern where
  inner : OpenGroup
  outer : List OpenGroup
  /-- Whether a bracket was found that opens no class, so that every bracket after it is itself. -/
  plainBrackets : Bool

namespace IgnoreToken

/-- Whether a token is a group without rows. -/
def isIdle : IgnoreToken → Bool
  | oneOf [] => true
  | _ => false

end IgnoreToken

namespace OpenPattern

/-- Nothing is read. -/
def empty : OpenPattern :=
  ⟨⟨[], []⟩, [], false⟩

/-- Adds a token. -/
def push (p : OpenPattern) (t : IgnoreToken) : OpenPattern :=
  { p with inner := { p.inner with current := t :: p.inner.current } }

/-- Adds the bytes of a character. -/
def pushChar (p : OpenPattern) (c : Char) : OpenPattern :=
  (Text.encode [c]).foldl (fun p b => p.push (.byte b)) p

/-- Opens a group. -/
def openGroup (p : OpenPattern) : OpenPattern :=
  { p with inner := ⟨[], []⟩, outer := p.inner :: p.outer }

/-- Begins the next branch of a group; outside all groups a comma is itself. -/
def nextBranch (p : OpenPattern) : OpenPattern :=
  if p.outer.isEmpty then p.pushChar ','
  else { p with inner := ⟨p.inner.current.reverse :: p.inner.branches, []⟩ }

/-- Closes a group; a branch that takes nothing is no choice. -/
def closeGroup (p : OpenPattern) : Option OpenPattern :=
  match p.outer with
  | [] => none
  | g :: outer =>
    let branches := (p.inner.current.reverse :: p.inner.branches).reverse.filter (!·.all IgnoreToken.isIdle)
    some { p with inner := { g with current := .oneOf branches :: g.current }, outer }

/-- The tokens, if all groups are closed. -/
def tokens? (p : OpenPattern) : Option (List IgnoreToken) :=
  if p.outer.isEmpty then some p.inner.current.reverse else none

/-- Adds `**` that comes after a separator, taking the separator back; `atEnd` says that nothing follows. -/
def pushDirectories (p : OpenPattern) (atEnd : Bool) : OpenPattern :=
  match p.inner.current with
  | .leadingDirectories :: _ => p
  | .everythingBelow :: _ => p
  | _ :: rest =>
    { p with inner := { p.inner with current := (if atEnd then .everythingBelow else .innerDirectories) :: rest } }
  | [] => p

/-- Adds two stars in a row, the characters after them being `cs`, and tells how many of these are taken.

They cross separators only as a whole component. -/
def pushTwoStars (p : OpenPattern) (previous : Option Char) (cs : List Char) : OpenPattern × Nat :=
  let plain := ((p.push .anyRun).push .anyRun, 0)
  if p.inner.current.isEmpty then
    match cs with
    | [] => (p.push .leadingDirectories, 0)
    | c :: _ => if c = '/' then (p.push .leadingDirectories, 1) else plain
  else if previous ≠ some '/' ∧ (p.outer.isEmpty ∨ (previous ≠ some ',' ∧ previous ≠ some '\x7b')) then plain
  else
    match cs with
    | [] => (p.pushDirectories true, 0)
    | c :: _ =>
      if c = '/' then (p.pushDirectories false, 1)
      else if (c = ',' ∨ c = '\x7d') ∧ !p.outer.isEmpty then (p.pushDirectories true, 0)
      else plain

end OpenPattern

/-- What is wrong with a class. -/
inductive ClassFault where
  /-- No bracket closes it. -/
  | unclosed
  /-- A range ends before it starts. -/
  | reversed
deriving DecidableEq, Repr

namespace IgnoreToken

/-- The bytes that a range of characters in a class stands for.

Only the last byte of the first character and the first byte of the last one make a range of bytes; the bytes before
and after them stand for themselves. -/
def bytesOfRange (first last : Char) : List (UInt8 × UInt8) :=
  let start := Text.encode [first]
  let stop := Text.encode [last]
  let single := fun (bs : List UInt8) => bs.map fun b => (b, b)
  if first = last then single start
  else single start.dropLast ++ start.getLast?.toList.zip stop.head?.toList ++ single stop.tail

/-- The class of some ranges of characters. -/
def ofRanges (negated : Bool) (ranges : List (Char × Char)) : IgnoreToken :=
  within negated (ranges.flatMap fun r => bytesOfRange r.1 r.2)

/-- The class whose characters, after the bracket and the negation, are read, and how many characters it takes.

`ranges` are the ranges so far, newest first; `isFirst` says that there are none yet, so that a closing bracket is
itself; `inRange` says that a hyphen came last. -/
def classFrom (negated isFirst inRange : Bool) (ranges : List (Char × Char)) (taken : Nat) :
    List Char → Except ClassFault (IgnoreToken × Nat)
  | [] => .error .unclosed
  | c :: cs =>
    if c = ']' ∧ !isFirst then
      .ok (ofRanges negated (if inRange then ('-', '-') :: ranges else ranges), taken + 1)
    else if c = '-' ∧ !isFirst ∧ !inRange then
      classFrom negated false true ranges (taken + 1) cs
    else if inRange then
      match ranges with
      | [] => .error .reversed
      | (first, _) :: rest =>
        if c < first then .error .reversed else classFrom negated false false ((first, c) :: rest) (taken + 1) cs
    else
      classFrom negated false false ((c, c) :: ranges) (taken + 1) cs

/-- The class that a bracket opens, the characters after it being `cs`, and how many of them it takes. -/
def readClass : List Char → Except ClassFault (IgnoreToken × Nat)
  | '!' :: cs => classFrom true true false [] 1 cs
  | '^' :: cs => classFrom true true false [] 1 cs
  | cs => classFrom false true false [] 0 cs

/-- Reads a pattern on from `p`; the first `skip` characters belong to tokens that are read already. -/
def readFrom (p : OpenPattern) (previous : Option Char) (skip : Nat) : List Char → Option (List IgnoreToken)
  | [] => p.tokens?
  | c :: cs =>
    if 0 < skip then readFrom p (some c) (skip - 1) cs
    else if c = '?' then readFrom (p.push anyByte) (some c) 0 cs
    else if c = '*' then
      match cs with
      | '*' :: rest =>
        let (p, taken) := p.pushTwoStars previous rest
        readFrom p (some c) (taken + 1) cs
      | _ => readFrom (p.push anyRun) (some c) 0 cs
    else if c = '[' ∧ !p.plainBrackets then
      match readClass cs with
      | .error .reversed => none
      | .error .unclosed => readFrom ({ p with plainBrackets := true }.pushChar c) (some c) 0 cs
      | .ok (t, taken) => readFrom (p.push t) (some c) taken cs
    else if c = '\x7b' then readFrom p.openGroup (some c) 0 cs
    else if c = '\x7d' then
      match p.closeGroup with
      | none => none
      | some p => readFrom p (some c) 0 cs
    else if c = ',' then readFrom p.nextBranch (some c) 0 cs
    else if c = '\\' then
      match cs with
      | [] => none
      | d :: _ => readFrom (p.pushChar d) (some c) 1 cs
    else readFrom (p.pushChar c) (some c) 0 cs

/-- The tokens of a pattern that is well formed. -/
def read? (pattern : List Char) : Option (List IgnoreToken) :=
  readFrom .empty none 0 pattern

end IgnoreToken

end IndentLint
