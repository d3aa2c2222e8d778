import IndentLint.File.Path

/-!
# The directories above a path

A path is followed upwards by taking off its last component, so `..` counts as a step down like any other name.
-/

namespace IndentLint.Path

/-- The path without its last component; the root and the empty path have none. -/
def parent? (p : Path) : Option Path :=
  match p.segments.head, trimEndSegments p.segments.body with
  | some .here, [] => some ⟨""⟩
  | _, [] => none
  | head, body => some (ofTrimmed ⟨head, body.dropLast⟩)

/-- A path and at most `n` paths above it, from the bottom up. -/
def ancestorsUpTo : Nat → Path → List Path
  | 0, p => [p]
  | n + 1, p =>
    p :: match p.parent? with
      | none => []
      | some q => ancestorsUpTo n q

/-- A path and all paths above it, from the bottom up. -/
def ancestors (p : Path) : List Path :=
  ancestorsUpTo p.components.length p

/-- What stands before the first name of an absolute path: the root, or two separators where there are exactly two. -/
def rootOf (p : Path) : Path :=
  if (p.text.toList.takeWhile (· == '/')).length = 2 then ⟨"//"⟩ else ⟨"/"⟩

/-- The path as seen from the root, a relative path starting in `base`.

Nothing is done about `..`; of the separators and dots without a meaning only one separator at the end is kept. -/
def absolute (p base : Path) : Path :=
  let names := p.segments.body.filter (!isSilent ·)
  let full := names.foldl (fun q name => q.join ⟨String.ofList name⟩) (if p.isAbsolute then p.rootOf else base)
  if p.text.toList.getLast? = some '/' then full.join ⟨""⟩ else full

end IndentLint.Path
