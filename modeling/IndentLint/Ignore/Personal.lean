import IndentLint.File.Standpoint
import IndentLint.Ignore.Rules

/-!
# A user's own ignore file

A user may ignore files in all repositories.  The file with the rules is named by the setting `excludesfile` in
`.gitconfig` at home, or else in `git/config` among the user's settings; where neither names one it is `git/ignore`
there.
-/

namespace IndentLint.PersonalIgnore

/-- The blanks between words, line breaks among them. -/
def isBlankByte (b : UInt8) : Bool :=
  b == 32 || (9 ≤ b && b ≤ 13)

/-- Drops the blanks at the front. -/
def skipBlanks (bs : List UInt8) : List UInt8 :=
  bs.dropWhile isBlankByte

/-- An ASCII letter in lower case. -/
def lowerByte (b : UInt8) : UInt8 :=
  if Text.byteOf 'A' ≤ b && b ≤ Text.byteOf 'Z' then b + 32 else b

/-- What follows a word in lower case, which may be written in any case. -/
def afterWord? (word bs : List UInt8) : Option (List UInt8) :=
  if (bs.take word.length).map lowerByte = word then some (bs.drop word.length) else none

/-- Whether there is a line break among the blanks at the front, or nothing after them. -/
def endsLine (bs : List UInt8) : Bool :=
  (bs.takeWhile isBlankByte).contains (Text.byteOf '\n') || (skipBlanks bs).isEmpty

/-- Whether a value may end here: nothing but a quote stands before the end of a line. -/
def endsValue (bs : List UInt8) : Bool :=
  endsLine bs || match skipBlanks bs with
    | [] => true
    | b :: rest => b == Text.byteOf '"' && endsLine rest

/-- Reads a value without blanks, `taken` being what came before, newest first; it ends as early as it may. -/
def readValue (taken : List UInt8) : List UInt8 → Option (List UInt8)
  | [] => none
  | b :: bs =>
    if isBlankByte b then none
    else if endsValue bs then some (b :: taken).reverse
    else readValue (b :: taken) bs

/-- Reads a value after its equals sign; a quote in front of it is dropped if a value is left. -/
def valueAfterSign? (bs : List UInt8) : Option (List UInt8) :=
  match skipBlanks bs with
  | [] => none
  | b :: rest =>
    let quoted := if b = Text.byteOf '"' then readValue [] (skipBlanks rest) else none
    quoted.or (readValue [] (b :: rest))

/-- Reads the value of `excludesfile` where a line begins with this setting. -/
def settingAt? (bs : List UInt8) : Option (List UInt8) := do
  let rest ← afterWord? (Text.encode "excludesfile".toList) (skipBlanks bs)
  match skipBlanks rest with
  | [] => none
  | b :: rest => if b = Text.byteOf '=' then valueAfterSign? rest else none

/-- The value of `excludesfile` in a file of settings, the first that can be read. -/
def setting? (atLineStart : Bool) : List UInt8 → Option (List UInt8)
  | [] => none
  | b :: bs => (if atLineStart then settingAt? (b :: bs) else none).or (setting? (b == Text.byteOf '\n') bs)

/-- A path with the user's home in place of every tilde. -/
def expandTilde (home : Option Path) (cs : List Char) : Path :=
  match home with
  | none => ⟨String.ofList cs⟩
  | some h => ⟨String.ofList (cs.flatMap fun c => if c = '~' then h.text.toList else [c])⟩

/-- The path that a file of settings names. -/
def namedIn? (s : Standpoint) (path : Path) : Option Path := do
  let value ← (s.bytes? path).bind (setting? true)
  let cs ← Text.decode? value
  return expandTilde s.home cs

/-- The path of the user's own ignore file. -/
def path? (s : Standpoint) : Option Path :=
  ((s.home.bind fun h => namedIn? s (h.join ⟨".gitconfig"⟩)).or
    (s.settingsDirectory.bind fun d => namedIn? s (d.join ⟨"git/config"⟩))).or
    (s.settingsDirectory.map (·.join ⟨"git/ignore"⟩))

/-- The rules of the user's own ignore file. -/
def rules (s : Standpoint) : List IgnoreRule :=
  match (path? s).bind s.bytes? with
  | none => []
  | some content => IgnoreRule.ofBytes content

end IndentLint.PersonalIgnore
