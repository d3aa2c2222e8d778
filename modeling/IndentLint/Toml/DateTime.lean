import IndentLint.Text.Integer

/-!
# Dates and times

A day of the calendar, a time on the clock, or both, in which case an offset from universal time may follow.  Days and
times have to exist; a minute may have a leap second.  Of a fraction of a second nine digits count.
-/

namespace IndentLint.Toml

/-- A day. -/
structure Date where
  year : Nat
  month : Nat
  day : Nat
deriving DecidableEq, Repr

/-- A time of day. -/
structure Time where
  hour : Nat
  minute : Nat
  second : Nat
  nanosecond : Nat
deriving DecidableEq, Repr

/-- The offset of a clock from universal time. -/
inductive Offset where
  | utc
  | minutes (ahead : Int)
deriving DecidableEq, Repr

/-- A day, a time, or both. -/
structure DateTime where
  date : Option Date
  time : Option Time
  offset : Option Offset
deriving DecidableEq, Repr

/-! ### Writing -/

/-- A number with zeros in front, `n` digits at least. -/
def paddedDigits (n k : Nat) : List Char :=
  let ds := Nat.toDigits 10 k
  List.replicate (n - ds.length) '0' ++ ds

/-- The characters of a day. -/
def Date.chars (d : Date) : List Char :=
  paddedDigits 4 d.year ++ '-' :: paddedDigits 2 d.month ++ '-' :: paddedDigits 2 d.day

/-- The characters of a fraction of a second, without zeros at the end. -/
def fractionChars (nanosecond : Nat) : List Char :=
  if nanosecond = 0 then [] else '.' :: ((paddedDigits 9 nanosecond).reverse.dropWhile (· == '0')).reverse

/-- The characters of a time. -/
def Time.chars (t : Time) : List Char :=
  paddedDigits 2 t.hour ++ ':' :: paddedDigits 2 t.minute ++ ':' :: paddedDigits 2 t.second ++
    fractionChars t.nanosecond

/-- The characters of an offset. -/
def Offset.chars : Offset → List Char
  | utc => ['Z']
  | minutes ahead =>
    (if ahead < 0 then '-' else '+') :: paddedDigits 2 (ahead.natAbs / 60) ++ ':' :: paddedDigits 2 (ahead.natAbs % 60)

/-- The text of a date and time, a `T` standing between the two. -/
def DateTime.text (d : DateTime) : String :=
  let date := (d.date.map Date.chars).getD []
  let between := if d.date.isSome && d.time.isSome then ['T'] else []
  let time := (d.time.map Time.chars).getD []
  let offset := (d.offset.map Offset.chars).getD []
  String.ofList (date ++ between ++ time ++ offset)

/-! ### Reading -/

/-- How far hours may go. -/
structure HourBounds where
  /-- The last hour of a day. -/
  lastHour : Nat
  /-- Whether an offset may have some hours and minutes. -/
  allowsOffset : Nat → Nat → Bool

/-- The hours of a date and time that stands for itself. -/
def HourBounds.strict : HourBounds :=
  ⟨23, fun hour minute => hour ≤ 23 && minute ≤ 59⟩

/-- The hours of a date and time inside a string. -/
def HourBounds.lenient : HourBounds :=
  ⟨24, fun hour minute => hour * 60 + minute ≤ 24 * 60⟩

/-- Reads a number of exactly `n` digits. -/
def scanFixed? (n : Nat) (cs : List Char) : Option (Nat × List Char) :=
  let ds := cs.take n
  if ds.length = n then (Text.natural? ds).map fun k => (k, cs.drop n) else none

/-- What follows a character at the front. -/
def expect? (c : Char) : List Char → Option (List Char)
  | [] => none
  | d :: cs => if d = c then some cs else none

/-- The number of days of a month. -/
def daysInMonth (year month : Nat) : Nat :=
  if month = 2 then
    if year % 4 = 0 ∧ (year % 100 ≠ 0 ∨ year % 400 = 0) then 29 else 28
  else if month = 4 ∨ month = 6 ∨ month = 9 ∨ month = 11 then 30
  else 31

/-- Reads a day. -/
def scanDate? (cs : List Char) : Option (Date × List Char) := do
  let (year, cs) ← scanFixed? 4 cs
  let cs ← expect? '-' cs
  let (month, cs) ← scanFixed? 2 cs
  let cs ← expect? '-' cs
  let (day, cs) ← scanFixed? 2 cs
  guard (1 ≤ month ∧ month ≤ 12 ∧ 1 ≤ day ∧ day ≤ daysInMonth year month)
  return (⟨year, month, day⟩, cs)

/-- Reads two numbers of two digits with a colon between them. -/
def scanHourMinute? (cs : List Char) : Option (Nat × Nat × List Char) := do
  let (hour, cs) ← scanFixed? 2 cs
  let cs ← expect? ':' cs
  let (minute, cs) ← scanFixed? 2 cs
  return (hour, minute, cs)

/-- The nanoseconds that the digits of a fraction write; digits past the ninth do not count. -/
def nanosecondsOf (digits : List Char) : Nat :=
  (Text.natural? ((digits ++ List.replicate 9 '0').take 9)).getD 0

/-- Reads a fraction of a second, if there is one. -/
def scanFraction (cs : List Char) : Nat × List Char :=
  match cs with
  | '.' :: rest =>
    match rest.takeWhile Char.isDigit with
    | [] => (0, cs)
    | digits => (nanosecondsOf digits, rest.dropWhile Char.isDigit)
  | _ => (0, cs)

/-- Reads a time. -/
def scanTime? (bounds : HourBounds) (cs : List Char) : Option (Time × List Char) := do
  let (hour, minute, cs) ← scanHourMinute? cs
  let cs ← expect? ':' cs
  let (second, cs) ← scanFixed? 2 cs
  guard (hour ≤ bounds.lastHour ∧ minute ≤ 59 ∧ second ≤ 60)
  let (nanosecond, cs) := scanFraction cs
  return (⟨hour, minute, second, nanosecond⟩, cs)

/-- Reads hours and minutes of an offset after its sign. -/
def scanMinutes? (bounds : HourBounds) (sign : Int) (cs : List Char) : Option (Offset × List Char) := do
  let (hour, minute, cs) ← scanHourMinute? cs
  guard (bounds.allowsOffset hour minute)
  return (.minutes (sign * (hour * 60 + minute : Nat)), cs)

/-- Reads an offset. -/
def scanOffset? (bounds : HourBounds) : List Char → Option (Offset × List Char)
  | 'Z' :: cs => some (.utc, cs)
  | 'z' :: cs => some (.utc, cs)
  | '+' :: cs => scanMinutes? bounds 1 cs
  | '-' :: cs => scanMinutes? bounds (-1) cs
  | _ => none

/-- Reads the time after a day, if there is one, and the offset after the time, if there is one. -/
def scanAfterDate (bounds : HourBounds) (date : Date) (cs : List Char) : DateTime × List Char :=
  match cs with
  | [] => (⟨date, none, none⟩, cs)
  | c :: later =>
    if c = 'T' ∨ c = 't' ∨ c = ' ' then
      match scanTime? bounds later with
      | none => (⟨date, none, none⟩, cs)
      | some (time, rest) =>
        match scanOffset? bounds rest with
        | none => (⟨date, time, none⟩, rest)
        | some (offset, rest) => (⟨date, time, offset⟩, rest)
    else (⟨date, none, none⟩, cs)

/-- Reads a day, a time or both. -/
def scanDateTime? (bounds : HourBounds) (cs : List Char) : Option (DateTime × List Char) :=
  match scanDate? cs with
  | some (date, rest) => some (scanAfterDate bounds date rest)
  | none => (scanTime? bounds cs).map fun (time, rest) => (⟨none, time, none⟩, rest)

/-- The date and time that a whole text writes. -/
def DateTime.ofText? (text : String) : Option DateTime :=
  match scanDateTime? .lenient text.toList with
  | some (d, []) => some d
  | _ => none

end IndentLint.Toml
