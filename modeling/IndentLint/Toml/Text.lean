import IndentLint.Json.Token

/-!
# TOML strings and keys

A string stands between quotes, single or double, one of them for a line of text and three for several lines.
Between double quotes a backslash begins an escape; between single quotes everything stands for itself.  Control
characters other than the tab are refused everywhere.
-/

namespace IndentLint.Toml

/-- The characters that may stand in comments and strings: no control characters but the tab. -/
def isContent (c : Char) : Bool :=
  c == '\t' || (0x20 ≤ c.toNat && c.toNat != 0x7F)

/-- The blanks inside a line. -/
def isSpace (c : Char) : Bool :=
  c == ' ' || c == '\t'

/-- Drops the blanks at the front. -/
def skipSpaces (cs : List Char) : List Char :=
  cs.dropWhile isSpace

/-- What follows a line break at the front, if there is one. -/
def afterLineBreak? : List Char → Option (List Char)
  | '\n' :: cs => some cs
  | '\r' :: '\n' :: cs => some cs
  | _ => none

/-- What follows the blanks, line breaks and comments at the front.

A comment has to end in a line break; `inComment` says whether the text begins inside one. -/
def skipLines? (inComment : Bool) : List Char → Option (List Char)
  | [] => if inComment then none else some []
  | '\n' :: cs => skipLines? false cs
  | '\r' :: '\n' :: cs => skipLines? false cs
  | c :: cs =>
    if inComment then
      if isContent c then skipLines? true cs else none
    else if isSpace c then skipLines? false cs
    else if c = '#' then skipLines? true cs
    else some (c :: cs)

/-- The character of an escape of one letter. -/
def escapedChar? : Char → Option Char
  | '"' => some '"'
  | '\\' => some '\\'
  | 'b' => some '\x08'
  | 'f' => some '\x0c'
  | 'n' => some '\n'
  | 'r' => some '\r'
  | 't' => some '\t'
  | _ => none

/-- The character with a code point, surrogates being none. -/
def charOfCode? (n : Nat) : Option Char :=
  if n.isValidChar then some (Char.ofNat n) else none

/-- The character that an escape of eight hexadecimal digits names. -/
def longEscape? (a b c d e f g h : Char) : Option Char := do
  let high ← JsonToken.hex4? a b c d
  let low ← JsonToken.hex4? e f g h
  charOfCode? (high * 0x10000 + low)

/-- Reads a string of one line up to its closing double quote, `taken` being what came before, newest first. -/
def scanBasic (taken : List Char) : List Char → Option (String × List Char)
  | [] => none
  | '"' :: rest => some (String.ofList taken.reverse, rest)
  | '\\' :: 'u' :: a :: b :: c :: d :: rest =>
    match (JsonToken.hex4? a b c d).bind charOfCode? with
    | none => none
    | some x => scanBasic (x :: taken) rest
  | '\\' :: 'U' :: a :: b :: c :: d :: e :: f :: g :: h :: rest =>
    match longEscape? a b c d e f g h with
    | none => none
    | some x => scanBasic (x :: taken) rest
  | '\\' :: c :: rest =>
    match escapedChar? c with
    | none => none
    | some x => scanBasic (x :: taken) rest
  | c :: rest => if isContent c then scanBasic (c :: taken) rest else none

/-- Reads a string of several lines up to its three closing double quotes, before which one or two more may stand.

A backslash at the end of a line takes the line break and all blanks and line breaks after it; `trimming` says
whether the text begins among these. -/
def scanMultilineBasic (trimming : Bool) (taken : List Char) : List Char → Option (String × List Char)
  | [] => none
  | '"' :: '"' :: '"' :: '"' :: '"' :: rest => some (String.ofList ('"' :: '"' :: taken).reverse, rest)
  | '"' :: '"' :: '"' :: '"' :: rest => some (String.ofList ('"' :: taken).reverse, rest)
  | '"' :: '"' :: '"' :: rest => some (String.ofList taken.reverse, rest)
  | '\\' :: 'u' :: a :: b :: c :: d :: rest =>
    match (JsonToken.hex4? a b c d).bind charOfCode? with
    | none => none
    | some x => scanMultilineBasic false (x :: taken) rest
  | '\\' :: 'U' :: a :: b :: c :: d :: e :: f :: g :: h :: rest =>
    match longEscape? a b c d e f g h with
    | none => none
    | some x => scanMultilineBasic false (x :: taken) rest
  | '\\' :: c :: rest =>
    match escapedChar? c with
    | some x => scanMultilineBasic false (x :: taken) rest
    | none =>
      if (afterLineBreak? (skipSpaces (c :: rest))).isSome then scanMultilineBasic true taken (c :: rest) else none
  | '\r' :: '\n' :: rest => scanMultilineBasic trimming (if trimming then taken else '\n' :: taken) rest
  | c :: rest =>
    if trimming && (isSpace c || c == '\n') then scanMultilineBasic true taken rest
    else if isContent c || c == '\n' then scanMultilineBasic false (c :: taken) rest
    else none

/-- Reads a string of one line up to its closing single quote. -/
def scanLiteral (cs : List Char) : Option (String × List Char) :=
  let text := cs.takeWhile fun c => c != '\'' && isContent c
  match cs.drop text.length with
  | '\'' :: rest => some (String.ofList text, rest)
  | _ => none

/-- Reads a string of several lines up to its three closing single quotes, before which one or two more may stand. -/
def scanMultilineLiteral (taken : List Char) : List Char → Option (String × List Char)
  | [] => none
  | '\'' :: '\'' :: '\'' :: '\'' :: '\'' :: rest => some (String.ofList ('\'' :: '\'' :: taken).reverse, rest)
  | '\'' :: '\'' :: '\'' :: '\'' :: rest => some (String.ofList ('\'' :: taken).reverse, rest)
  | '\'' :: '\'' :: '\'' :: rest => some (String.ofList taken.reverse, rest)
  | '\r' :: '\n' :: rest => scanMultilineLiteral ('\n' :: taken) rest
  | c :: rest => if isContent c || c == '\n' then scanMultilineLiteral (c :: taken) rest else none

/-- Drops a line break at the front. -/
def dropLineBreak (cs : List Char) : List Char :=
  (afterLineBreak? cs).getD cs

/-- Reads a string of any form. -/
def scanText? : List Char → Option (String × List Char)
  | '"' :: '"' :: '"' :: rest => scanMultilineBasic false [] (dropLineBreak rest)
  | '"' :: rest => scanBasic [] rest
  | '\'' :: '\'' :: '\'' :: rest => scanMultilineLiteral [] (dropLineBreak rest)
  | '\'' :: rest => scanLiteral rest
  | _ => none

/-- The characters of a key without quotes. -/
def isBareKeyChar (c : Char) : Bool :=
  c.isAlphanum || c == '-' || c == '_'

/-- Reads one part of a key. -/
def scanSimpleKey? : List Char → Option (String × List Char)
  | '"' :: rest => scanBasic [] rest
  | '\'' :: rest => scanLiteral rest
  | cs =>
    match cs.takeWhile isBareKeyChar with
    | [] => none
    | key => some (String.ofList key, cs.dropWhile isBareKeyChar)

/-- The number of parts that a key must stay below. -/
def keyLimit : Nat :=
  80

/-- Reads a key of at most `n` parts with dots between them and blanks around each. -/
def scanKeyParts? : Nat → List Char → Option (List String × List Char)
  | 0, _ => none
  | n + 1, cs =>
    match scanSimpleKey? (skipSpaces cs) with
    | none => none
    | some (part, rest) =>
      match skipSpaces rest with
      | '.' :: rest => (scanKeyParts? n rest).map fun (parts, rest) => (part :: parts, rest)
      | rest => some ([part], rest)

/-- Reads a key and the blanks around it. -/
def scanKey? (cs : List Char) : Option (List String × List Char) :=
  scanKeyParts? (keyLimit - 1) cs

end IndentLint.Toml
