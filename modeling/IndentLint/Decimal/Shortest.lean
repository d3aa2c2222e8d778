import IndentLint.Decimal.Binary64

/-!
# The shortest decimal of a number

Among the decimals that stand for a floating-point number the text has the fewest digits, and of those the decimal
nearest to the number.  It is written out without a power of ten, and a whole number without a point.
-/

namespace IndentLint.Binary64

/-- The decimals that stand for a number `value / scale`: those from `low / scale` to `high / scale`, the ends among
them if `closed` holds. -/
structure Interval where
  low : Nat
  value : Nat
  high : Nat
  scale : Nat
  closed : Bool
deriving DecidableEq, Repr

/-- A decimal by its digits, read as one number, and a power of ten. -/
structure Digits where
  digits : Nat
  power : Int
deriving DecidableEq, Repr

/-- The decimals that stand for the number of a mantissa and a power of two. -/
def interval (mantissa : Nat) (exponent : Int) : Interval :=
  let (value, scale) := scaled (4 * mantissa) 2 exponent
  let (quarter, _) := scaled 1 2 exponent
  let below := if mantissa = Nat.pow 2 52 ∧ minExponent < exponent then quarter else 2 * quarter
  { low := value - below, value, high := value + 2 * quarter, scale := 4 * scale, closed := mantissa % 2 = 0 }

namespace Interval

/-- Whether the decimal `num / den` stands for the number. -/
def contains (i : Interval) (num den : Nat) : Bool :=
  let x := num * i.scale
  if i.closed then i.low * den ≤ x && x ≤ i.high * den else i.low * den < x && x < i.high * den

/-- The power of ten of the leading digit of the number. -/
def leadingPower (i : Interval) : Int :=
  let guess : Int := (digitCount i.value : Int) - (digitCount i.scale : Int)
  let (num, den) := scaled i.scale 10 guess
  if num ≤ i.value * den then guess else guess - 1

/-- The decimal on the grid of `10 ^ power` that stands for the number and is nearest to it. -/
def onGrid? (i : Interval) (power : Int) : Option Digits :=
  let (step, parts) := scaled i.scale 10 power
  let down := i.value * parts / step
  let holds := fun n =>
    let (num, den) := scaled n 10 power
    i.contains num den
  let farther := step ≤ 2 * (i.value * parts % step)
  match holds down, holds (down + 1) with
  | true, true => some ⟨if farther then down + 1 else down, power⟩
  | true, false => some ⟨down, power⟩
  | false, true => some ⟨down + 1, power⟩
  | false, false => none

/-- The first decimal that is found on finer and finer grids. -/
def searchGrids (i : Interval) (power : Int) : Nat → Option Digits
  | 0 => none
  | n + 1 => (i.onGrid? power).or (searchGrids i (power - 1) n)

/-- The shortest decimal; seventeen digits always suffice. -/
def shortest (i : Interval) : Digits :=
  (i.searchGrids i.leadingPower 17).getD ⟨0, 0⟩

end Interval

namespace Digits

/-- The decimal written out, without zeros after its last digit behind the point. -/
def plain (d : Digits) : List Char :=
  let ds := Nat.toDigits 10 d.digits
  if 0 ≤ d.power then
    ds ++ List.replicate d.power.toNat '0'
  else
    let places := (-d.power).toNat
    let padded := List.replicate (places + 1 - ds.length) '0' ++ ds
    let whole := padded.take (padded.length - places)
    let fraction := ((padded.drop (padded.length - places)).reverse.dropWhile (· == '0')).reverse
    if fraction.isEmpty then whole else whole ++ '.' :: fraction

end Digits

/-- The sign of a number. -/
def sign (negative : Bool) : List Char :=
  if negative then ['-'] else []

/-- The text of a number. -/
def text : Binary64 → String
  | finite negative 0 _ => String.ofList (sign negative ++ ['0'])
  | finite negative mantissa exponent =>
    String.ofList (sign negative ++ (interval mantissa exponent).shortest.plain)
  | infinite negative => String.ofList (sign negative ++ "inf".toList)
  | nan => "NaN"

end IndentLint.Binary64
