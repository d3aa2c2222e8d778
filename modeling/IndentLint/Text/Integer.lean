/-!
# Integers in decimal

A signed integer is at most one sign followed by decimal digits of ASCII, at least one, any number of zeros among
them; its value has to fit in 64 bits.
-/

namespace IndentLint.Text

/-- The number that a row of decimal digits writes, after digits of value `n`. -/
def digitsFrom? (n : Nat) : List Char → Option Nat
  | [] => some n
  | c :: cs => if c.isDigit then digitsFrom? (10 * n + (c.toNat - '0'.toNat)) cs else none

/-- The number that one or more decimal digits write. -/
def natural? (cs : List Char) : Option Nat :=
  if cs.isEmpty then none else digitsFrom? 0 cs

/-- Keeps a number that fits in 64 bits with a sign. -/
def fit64? (n : Int) : Option Int :=
  if -(Nat.pow 2 63) ≤ n ∧ n < Nat.pow 2 63 then some n else none

/-- The signed integer of 64 bits that a text writes. -/
def integer64? : List Char → Option Int
  | '-' :: cs => (natural? cs).bind fun n => fit64? (-n)
  | '+' :: cs => (natural? cs).bind fun n => fit64? n
  | cs => (natural? cs).bind fun n => fit64? n

end IndentLint.Text
