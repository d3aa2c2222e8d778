/-!
# Binary floating-point numbers of 64 bits

A finite number is a mantissa below `2 ^ 53` times a power of two; zero and the smallest numbers have the power
`2 ^ (-1074)`, and every other mantissa has its full 53 bits.  A decimal stands for the number nearest to it, the
one with an even mantissa where two are equally near, and for infinity where it is too large.
-/

namespace IndentLint

/-- A floating-point number. -/
inductive Binary64 where
  | finite (negative : Bool) (mantissa : Nat) (exponent : Int)
  | infinite (negative : Bool)
  | nan
deriving DecidableEq, Repr

namespace Binary64

/-- The smallest power of two in a number. -/
def minExponent : Int :=
  -1074

/-- The largest power of two in a number. -/
def maxExponent : Int :=
  971

/-- The number of digits of `n` in base ten; zero has none. -/
def digitCount (n : Nat) : Nat :=
  if n = 0 then 0 else (Nat.toDigits 10 n).length

/-- A numerator and a denominator of `n · base ^ power`. -/
def scaled (n base : Nat) (power : Int) : Nat × Nat :=
  if 0 ≤ power then (n * base.pow power.toNat, 1) else (n, base.pow (-power).toNat)

/-- The whole number nearest to `num / den`, the even one of two. -/
def roundHalfEven (num den : Nat) : Nat :=
  let q := num / den
  let r := num % den
  if 2 * r < den ∨ (2 * r = den ∧ q % 2 = 0) then q else q + 1

/-- The power of two that gives `num / den` a mantissa of 53 bits, if it is not too small for that. -/
def exponentFor (num den : Nat) : Int :=
  let guess : Int := (Nat.log2 num : Int) - (Nat.log2 den : Int) - 53
  let (low, high) := scaled den 2 (guess + 53)
  max minExponent (if low ≤ num * high then guess + 1 else guess)

/-- The number nearest to `num / den`. -/
def ofRatio (negative : Bool) (num den : Nat) : Binary64 :=
  let e := exponentFor num den
  let (a, b) := scaled num 2 (-e)
  let m := roundHalfEven a (b * den)
  if m = Nat.pow 2 53 then
    if maxExponent < e + 1 then infinite negative else finite negative (Nat.pow 2 52) (e + 1)
  else if maxExponent < e then infinite negative
  else finite negative m e

/-- The number nearest to `digits · 10 ^ power`. -/
def ofDecimal (negative : Bool) (digits : Nat) (power : Int) : Binary64 :=
  let magnitude := (digitCount digits : Int) + power
  if digits = 0 ∨ magnitude < -330 then finite negative 0 minExponent
  else if 310 < magnitude then infinite negative
  else
    let (num, den) := scaled digits 10 power
    ofRatio negative num den

end Binary64

end IndentLint
