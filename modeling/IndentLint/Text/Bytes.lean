/-!
# Text measured in bytes

Positions in a file are counted in the bytes of its UTF-8 encoding, while text is handled as a list of
characters.  A cut at a byte position succeeds only on a boundary between two characters.
-/

namespace IndentLint.Text

/-- The number of bytes of the UTF-8 encoding. -/
def byteLength (cs : List Char) : Nat :=
  cs.foldr (fun c n => c.utf8Size + n) 0

/-- Moves `n` bytes from the front of `cs` to the end of the reversed list `taken`. -/
def splitBytesFrom (taken : List Char) : List Char → Nat → Option (List Char × List Char)
  | cs, 0 => some (taken.reverse, cs)
  | [], _ + 1 => none
  | c :: cs, n + 1 => if c.utf8Size ≤ n + 1 then splitBytesFrom (c :: taken) cs (n + 1 - c.utf8Size) else none

/-- The first `n` bytes and the rest; `none` past the end or inside a character. -/
def splitBytes? (cs : List Char) (n : Nat) : Option (List Char × List Char) :=
  splitBytesFrom [] cs n

/-- The text from byte `start` up to byte `stop`; `none` unless both are boundaries in this order. -/
def slice? (cs : List Char) (start stop : Nat) : Option (List Char) := do
  guard (start ≤ stop)
  let (_, rest) ← splitBytes? cs start
  let (middle, _) ← splitBytes? rest (stop - start)
  return middle

end IndentLint.Text
