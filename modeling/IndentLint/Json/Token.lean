import IndentLint.Text.Integer

/-!
# JSON tokens

A JSON text is a row of tokens with blanks between them.  A string token is decoded as it is read: an escape that
names half of a surrogate pair is a well-formed literal, but the string then has no text.
-/

namespace IndentLint

/-- A token of a JSON text. -/
inductive JsonToken where
  | openArray
  | closeArray
  | openObject
  | closeObject
  | comma
  | colon
  | null
  | bool (value : Bool)
  | number (literal : List Char)
  /-- A string and its text, which is missing if the literal names half of a surrogate pair. -/
  | string (text : Option String)
deriving DecidableEq, Repr

namespace JsonToken

/-- The value of a hexadecimal digit in either case. -/
def hexDigit? (c : Char) : Option Nat :=
  if '0' ≤ c ∧ c ≤ '9' then some (c.toNat - '0'.toNat)
  else if 'a' ≤ c ∧ c ≤ 'f' then some (c.toNat - 'a'.toNat + 10)
  else if 'A' ≤ c ∧ c ≤ 'F' then some (c.toNat - 'A'.toNat + 10)
  else none

/-- The number that four hexadecimal digits write. -/
def hex4? (a b c d : Char) : Option Nat := do
  let a ← hexDigit? a
  let b ← hexDigit? b
  let c ← hexDigit? c
  let d ← hexDigit? d
  return ((a * 16 + b) * 16 + c) * 16 + d

/-- The character of an escape of one letter. -/
def escaped? : Char → Option Char
  | '"' => some '"'
  | '\\' => some '\\'
  | '/' => some '/'
  | 'b' => some '\x08'
  | 'f' => some '\x0c'
  | 'n' => some '\n'
  | 'r' => some '\r'
  | 't' => some '\t'
  | _ => none

/-- The first half of a surrogate pair. -/
def isHighSurrogate (n : Nat) : Bool :=
  0xD800 ≤ n && n < 0xDC00

/-- The second half of a surrogate pair. -/
def isLowSurrogate (n : Nat) : Bool :=
  0xDC00 ≤ n && n < 0xE000

/-- The character that a surrogate pair stands for. -/
def ofSurrogates (high low : Nat) : Char :=
  Char.ofNat (0x10000 + (high - 0xD800) * 0x400 + (low - 0xDC00))

/-- A string literal as far as it is read. -/
structure StringSoFar where
  /-- The characters, newest first, unless half of a surrogate pair was among them. -/
  taken : Option (List Char)
  /-- The first half of a surrogate pair that was just read. -/
  half : Option Nat
deriving DecidableEq, Repr

namespace StringSoFar

/-- Nothing is read. -/
def empty : StringSoFar :=
  ⟨some [], none⟩

/-- Adds a character; a first half just before it stays alone. -/
def push (s : StringSoFar) (c : Char) : StringSoFar :=
  match s.half with
  | none => ⟨s.taken.map (c :: ·), none⟩
  | some _ => ⟨none, none⟩

/-- Adds an escaped unit of UTF-16. -/
def pushUnit (s : StringSoFar) (n : Nat) : StringSoFar :=
  if isHighSurrogate n then
    ⟨if s.half.isSome then none else s.taken, some n⟩
  else if isLowSurrogate n then
    match s.half with
    | none => ⟨none, none⟩
    | some high => ⟨s.taken.map (ofSurrogates high n :: ·), none⟩
  else
    s.push (Char.ofNat n)

/-- The text, if no half stayed alone. -/
def text? (s : StringSoFar) : Option String :=
  if s.half.isSome then none else s.taken.map fun cs => String.ofList cs.reverse

end StringSoFar

/-- Reads a string up to its closing quote. -/
def scanString (s : StringSoFar) : List Char → Option (StringSoFar × List Char)
  | [] => none
  | '"' :: rest => some (s, rest)
  | '\\' :: 'u' :: a :: b :: c :: d :: rest =>
    match hex4? a b c d with
    | none => none
    | some n => scanString (s.pushUnit n) rest
  | '\\' :: c :: rest =>
    match escaped? c with
    | none => none
    | some e => scanString (s.push e) rest
  | c :: rest => if c.toNat < 0x20 then none else scanString (s.push c) rest

/-- Reads one or more decimal digits. -/
def scanDigits? (cs : List Char) : Option (List Char × List Char) :=
  match cs.span Char.isDigit with
  | ([], _) => none
  | (digits, rest) => some (digits, rest)

/-- Reads a whole number without a sign; only the number zero starts with `0`. -/
def scanWhole? (cs : List Char) : Option (List Char × List Char) :=
  match scanDigits? cs with
  | some ('0' :: _ :: _, _) => none
  | r => r

/-- Reads the part of a number after its point, if there is a point. -/
def scanFraction? : List Char → Option (List Char × List Char)
  | '.' :: cs => (scanDigits? cs).map fun (digits, rest) => ('.' :: digits, rest)
  | cs => some ([], cs)

/-- Reads the power of ten of a number, if it has one. -/
def scanPower? : List Char → Option (List Char × List Char)
  | [] => some ([], [])
  | e :: cs =>
    if e = 'e' ∨ e = 'E' then
      match cs with
      | '+' :: cs => (scanDigits? cs).map fun (digits, rest) => (e :: '+' :: digits, rest)
      | '-' :: cs => (scanDigits? cs).map fun (digits, rest) => (e :: '-' :: digits, rest)
      | cs => (scanDigits? cs).map fun (digits, rest) => (e :: digits, rest)
    else some ([], e :: cs)

/-- Reads a number without a sign. -/
def scanUnsigned? (cs : List Char) : Option (List Char × List Char) := do
  let (whole, cs) ← scanWhole? cs
  let (fraction, cs) ← scanFraction? cs
  let (power, cs) ← scanPower? cs
  return (whole ++ fraction ++ power, cs)

/-- Reads a number. -/
def scanNumber? : List Char → Option (List Char × List Char)
  | '-' :: cs => (scanUnsigned? cs).map fun (literal, rest) => ('-' :: literal, rest)
  | cs => scanUnsigned? cs

/-- Reads one token. -/
def scan? : List Char → Option (JsonToken × List Char)
  | '[' :: cs => some (openArray, cs)
  | ']' :: cs => some (closeArray, cs)
  | '\x7b' :: cs => some (openObject, cs)
  | '\x7d' :: cs => some (closeObject, cs)
  | ',' :: cs => some (comma, cs)
  | ':' :: cs => some (colon, cs)
  | '"' :: cs => (scanString .empty cs).map fun (s, rest) => (string s.text?, rest)
  | 'n' :: 'u' :: 'l' :: 'l' :: cs => some (null, cs)
  | 't' :: 'r' :: 'u' :: 'e' :: cs => some (bool true, cs)
  | 'f' :: 'a' :: 'l' :: 's' :: 'e' :: cs => some (bool false, cs)
  | cs => (scanNumber? cs).map fun (literal, rest) => (number literal, rest)

/-- The blanks of JSON. -/
def isJsonBlank (c : Char) : Bool :=
  c == ' ' || c == '\t' || c == '\n' || c == '\r'

/-- The tokens of a text, in at most `fuel` steps. -/
def scanAllIn : Nat → List Char → Option (List JsonToken)
  | 0, _ => none
  | _ + 1, [] => some []
  | fuel + 1, c :: cs =>
    if isJsonBlank c then
      scanAllIn fuel cs
    else
      match scan? (c :: cs) with
      | none => none
      | some (t, rest) => (scanAllIn fuel rest).map (t :: ·)

/-- The tokens of a text; each takes at least one character. -/
def scanAll (cs : List Char) : Option (List JsonToken) :=
  scanAllIn (cs.length + 1) cs

end JsonToken

end IndentLint
