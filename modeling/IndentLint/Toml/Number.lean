import IndentLint.Text.Integer
import IndentLint.Toml.Text
import IndentLint.Toml.Value

/-!
# TOML numbers

Single underscores may stand between the digits of a number.  An integer has to fit in 64 bits, a float must not be
too large; only zero starts with a `0`.  What begins like a date or a time is one.
-/

namespace IndentLint.Toml

/-- Reads further digits, each of them after an underscore or not; `taken` holds the digits before. -/
def scanMoreDigits (isDigit : Char → Bool) (taken : List Char) : List Char → List Char × List Char
  | [] => (taken.reverse, [])
  | '_' :: d :: cs => if isDigit d then scanMoreDigits isDigit (d :: taken) cs else (taken.reverse, '_' :: d :: cs)
  | c :: cs => if isDigit c then scanMoreDigits isDigit (c :: taken) cs else (taken.reverse, c :: cs)

/-- Reads one or more digits. -/
def scanDigitRun? (isDigit : Char → Bool) : List Char → Option (List Char × List Char)
  | [] => none
  | c :: cs => if isDigit c then some (scanMoreDigits isDigit [c] cs) else none

/-- Reads a sign, if there is one: whether it is a minus. -/
def scanSign : List Char → Bool × List Char
  | '-' :: cs => (true, cs)
  | '+' :: cs => (false, cs)
  | cs => (false, cs)

/-- Reads the digits of a decimal number; a zero in front is all of it. -/
def scanDecimal? : List Char → Option (List Char × List Char)
  | '0' :: cs => some (['0'], cs)
  | cs => scanDigitRun? Char.isDigit cs

/-- The number that digits of some base write. -/
def digitsValue (base : Nat) (ds : List Char) : Nat :=
  ds.foldl (fun n d => n * base + (JsonToken.hexDigit? d).getD 0) 0

/-- Reads an integer of a base other than ten. -/
def scanBased? (base : Nat) (isDigit : Char → Bool) (cs : List Char) : Option (Int × List Char) := do
  let (ds, rest) ← scanDigitRun? isDigit cs
  let n ← Text.fit64? (digitsValue base ds)
  return (n, rest)

/-- Reads an integer. -/
def scanInteger? : List Char → Option (Int × List Char)
  | '0' :: 'x' :: cs => scanBased? 16 (fun c => (JsonToken.hexDigit? c).isSome) cs
  | '0' :: 'o' :: cs => scanBased? 8 (fun c => '0' ≤ c && c ≤ '7') cs
  | '0' :: 'b' :: cs => scanBased? 2 (fun c => c == '0' || c == '1') cs
  | cs => do
    let (negative, cs) := scanSign cs
    let (ds, rest) ← scanDecimal? cs
    let n := digitsValue 10 ds
    let n ← Text.fit64? (if negative then -n else n)
    return (n, rest)

/-- Reads the power of ten of a float. -/
def scanPowerOfTen? : List Char → Option (Int × List Char)
  | [] => none
  | c :: cs =>
    if c = 'e' ∨ c = 'E' then do
      let (negative, cs) := scanSign cs
      let (ds, rest) ← scanDigitRun? Char.isDigit cs
      let n := digitsValue 10 ds
      return (if negative then -n else n, rest)
    else none

/-- Reads what makes a number a float: digits behind a point, a power of ten, or both. -/
def scanFloatTail? : List Char → Option ((List Char × Int) × List Char)
  | '.' :: cs => do
    let (ds, rest) ← scanDigitRun? Char.isDigit cs
    match scanPowerOfTen? rest with
    | some (power, rest) => return ((ds, power), rest)
    | none => return ((ds, 0), rest)
  | cs => (scanPowerOfTen? cs).map fun (power, rest) => (([], power), rest)

/-- Reads a float. -/
def scanFloat? (cs : List Char) : Option (Binary64 × List Char) :=
  let (negative, cs) := scanSign cs
  match cs with
  | 'i' :: 'n' :: 'f' :: rest => some (.infinite negative, rest)
  | 'n' :: 'a' :: 'n' :: rest => some (.nan, rest)
  | cs => do
    let (whole, cs) ← scanDecimal? cs
    let ((fraction, power), rest) ← scanFloatTail? cs
    let x := Binary64.ofDecimal negative (digitsValue 10 (whole ++ fraction)) (power - fraction.length)
    guard (x ≠ .infinite false)
    return (x, rest)

/-- Reads a date or a number. -/
def scanNumber? (cs : List Char) : Option (Value × List Char) :=
  match scanDateTime? .strict cs with
  | some (d, rest) => some (.datetime d, rest)
  | none =>
    match scanFloat? cs with
    | some (x, rest) => some (.float x, rest)
    | none => (scanInteger? cs).map fun (n, rest) => (.integer n, rest)

end IndentLint.Toml
