/-!
# Glob patterns

A pattern is read from left to right: `?` is any character, `*` any run of characters, also across `/`, and a class
in brackets one character of a set or outside it.  `**` has to be a whole component of the pattern; it stands for
any number of leading directories and takes the separator after it.  Everything else is itself.  The first fault
from the left is reported with its position in characters.
-/

namespace IndentLint

/-- A character or a range of characters in a class. -/
inductive ClassItem where
  | single (c : Char)
  | range (first last : Char)
deriving DecidableEq, Repr

/-- One step of a pattern. -/
inductive GlobToken where
  | char (c : Char)
  | anyChar
  | anyRun
  | anyDirectories
  | within (items : List ClassItem)
  | except (items : List ClassItem)
deriving DecidableEq, Repr

/-- What is wrong with a pattern. -/
inductive GlobFault where
  /-- Three or more `*` in a row. -/
  | tooManyStars
  /-- A `**` that is not a whole component. -/
  | partialComponent
  /-- A bracket that opens no class. -/
  | badClass
deriving DecidableEq, Repr

/-- A fault of a pattern and the character near which it is. -/
structure GlobError where
  position : Nat
  fault : GlobFault
deriving DecidableEq, Repr

/-- A pattern that is well formed. -/
structure Glob where
  tokens : List GlobToken
deriving DecidableEq, Repr

namespace GlobFault

/-- The fault in words. -/
def message : GlobFault → String
  | tooManyStars => "wildcards are either regular \x60*\x60 or recursive \x60**\x60"
  | partialComponent => "recursive wildcards must form a single path component"
  | badClass => "invalid range pattern"

end GlobFault

namespace GlobError

/-- The fault and its place in words. -/
def message (e : GlobError) : String :=
  s!"Pattern syntax error near position {e.position}: {e.fault.message}"

end GlobError

namespace ClassItem

/-- The items of a class: `x-y` is a range, every other character stands for itself. -/
def ofChars : List Char → List ClassItem
  | [] => []
  | x :: '-' :: y :: rest => range x y :: ofChars rest
  | c :: rest => single c :: ofChars rest

/-- Whether a character is meant by an item. -/
def admits (c : Char) : ClassItem → Bool
  | single d => c == d
  | range first last => first ≤ c && c ≤ last

end ClassItem

namespace GlobToken

/-- Whether a single character fits a token. -/
def admits (c : Char) : GlobToken → Bool
  | char d => c == d
  | anyChar => true
  | anyRun => false
  | anyDirectories => false
  | within items => items.any (·.admits c)
  | except items => !items.any (·.admits c)

end GlobToken

namespace Glob

/-- The token that a bracket opens, the characters after the bracket being `cs`, and how many of them it takes.

A class holds at least one character, so a `]` that comes first in it does not close it. -/
def classToken? : List Char → Option (GlobToken × Nat)
  | '!' :: first :: cs =>
    if cs.contains ']' then
      let more := cs.takeWhile (· != ']')
      some (.except (ClassItem.ofChars (first :: more)), more.length + 3)
    else none
  | first :: cs =>
    if first ≠ '!' ∧ cs.contains ']' then
      let more := cs.takeWhile (· != ']')
      some (.within (ClassItem.ofChars (first :: more)), more.length + 2)
    else none
  | [] => none

/-- The token of a row of stars at `position`, the characters after the first star being `cs`, and how many of them
it takes. -/
def starToken (position : Nat) (previous : Option Char) (cs : List Char) : Except GlobError (GlobToken × Nat) :=
  match cs with
  | '*' :: '*' :: _ => .error ⟨position + 2, .tooManyStars⟩
  | '*' :: rest =>
    if previous = none ∨ previous = some '/' then
      match rest with
      | [] => .ok (.anyDirectories, 1)
      | c :: _ => if c = '/' then .ok (.anyDirectories, 2) else .error ⟨position + 2, .partialComponent⟩
    else
      .error ⟨position - 1, .partialComponent⟩
  | _ => .ok (.anyRun, 0)

/-- The tokens of the characters from `position` on, of which the first `skip` belong to an earlier token. -/
def tokensFrom (position : Nat) (previous : Option Char) (skip : Nat) : List Char → Except GlobError (List GlobToken)
  | [] => .ok []
  | c :: cs =>
    if 0 < skip then
      tokensFrom (position + 1) (some c) (skip - 1) cs
    else if c = '?' then
      (tokensFrom (position + 1) (some c) 0 cs).map (.anyChar :: ·)
    else if c = '*' then
      match starToken position previous cs with
      | .error e => .error e
      | .ok (token, taken) => (tokensFrom (position + 1) (some c) taken cs).map (token :: ·)
    else if c = '[' then
      match classToken? cs with
      | none => .error ⟨position, .badClass⟩
      | some (token, taken) => (tokensFrom (position + 1) (some c) taken cs).map (token :: ·)
    else
      (tokensFrom (position + 1) (some c) 0 cs).map (.char c :: ·)

/-- Reads a pattern. -/
def parse (pattern : String) : Except GlobError Glob :=
  (tokensFrom 0 none 0 pattern.toList).map Glob.mk

end Glob

end IndentLint
