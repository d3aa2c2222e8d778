import IndentLint.Text.Pieces

/-!
# Text as bytes

A file holds bytes; its text is what they write in UTF-8.  Some files are read line by line and count up to the first
line that is no text.
-/

namespace IndentLint.Text

/-- The bytes that write a text. -/
def encode (cs : List Char) : List UInt8 :=
  cs.flatMap String.utf8EncodeChar

/-- The text that some bytes write, if they are UTF-8. -/
def decode? (bytes : List UInt8) : Option (List Char) :=
  (String.fromUTF8? ⟨bytes.toArray⟩).map String.toList

/-- The byte of an ASCII character. -/
def byteOf (c : Char) : UInt8 :=
  c.toNat.toUInt8

/-- A line without the carriage return at its end. -/
def dropReturn (line : List UInt8) : List UInt8 :=
  if line.getLast? = some (byteOf '\r') then line.dropLast else line

/-- The lines that some bytes hold.  A line feed ends a line and takes a carriage return before it along; what comes
after the last line feed is a line unless it is empty. -/
def byteLines (bytes : List UInt8) : List (List UInt8) :=
  let ps := pieces (byteOf '\n') bytes
  ps.dropLast.map dropReturn ++ (ps.getLast?.filter (!·.isEmpty)).toList

/-- The texts of some lines up to the first that is no text. -/
def decodeLines : List (List UInt8) → List (List Char)
  | [] => []
  | line :: rest =>
    match decode? line with
    | none => []
    | some cs => cs :: decodeLines rest

end IndentLint.Text
