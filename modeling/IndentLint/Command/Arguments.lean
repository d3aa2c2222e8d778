import IndentLint.Command.Switch

/-!
# Reading the command line

Arguments are read from left to right, and the first one that cannot be read, or that asks for help or for the
version, decides.  A value is joined to its switch or is the next argument; in the latter case it is looked at only
when reading goes on behind it.
-/

namespace IndentLint.Command

/-- Why nothing is to be done. -/
inductive Stop where
  /-- The arguments make no sense. -/
  | misuse
  | help
  | version
deriving DecidableEq, Repr

/-- What was read in one part of the command line. -/
structure Reading where
  /-- The switches with their values, in order; a switch without a value has the empty text. -/
  taken : List (Switch × String)
  paths : List String
  /-- A switch and the value in the argument behind it, which was not looked at yet. -/
  waiting : Option (Switch × String)
deriving DecidableEq, Repr

/-- An argument by its form. -/
inductive Argument where
  /-- The mark `--`, behind which there are no switches. -/
  | endOfSwitches
  /-- A switch by its word, with what follows the word. -/
  | word (text : List Char)
  /-- Switches by their letters. -/
  | letters (text : List Char)
  | plain (text : String)
deriving DecidableEq, Repr

namespace Argument

/-- The form of an argument; a single `-` is plain. -/
def ofText (text : String) : Argument :=
  match text.toList with
  | ['-', '-'] => endOfSwitches
  | '-' :: '-' :: cs => word cs
  | '-' :: c :: cs => letters (c :: cs)
  | _ => plain text

/-- Whether an argument can be the value of the switch before it. -/
def isValue (text : String) : Bool :=
  ofText text = plain text

end Argument

namespace Reading

/-- Nothing was read yet. -/
def empty : Reading :=
  ⟨[], [], none⟩

/-- Whether a switch was read. -/
def has (r : Reading) (s : Switch) : Bool :=
  r.taken.any (·.1 = s)

/-- The value of a switch. -/
def value? (r : Reading) (s : Switch) : Option String :=
  r.taken.lookup s

/-- The values of a switch, in order. -/
def values (r : Reading) (s : Switch) : List String :=
  r.taken.filterMap fun (t, value) => if t = s then some value else none

/-- Adds a switch with its value. -/
def take (r : Reading) (s : Switch) (value : String) : Except Stop Reading :=
  if s.accepts value && (s.isRepeatable || !r.has s) then .ok { r with taken := r.taken ++ [(s, value)] }
  else .error .misuse

/-- Looks at the value that is waiting. -/
def settle (r : Reading) : Except Stop Reading :=
  match r.waiting with
  | none => .ok r
  | some (s, value) => { r with waiting := none }.take s value

/-- Adds a switch that has no value. -/
def turn (r : Reading) : Switch → Except Stop Reading
  | .help => .error .help
  | .version => .error .version
  | s => r.take s ""

/-- Adds a path. -/
def takePath (r : Reading) (part : Section) (path : String) : Except Stop Reading :=
  if r.paths.length < part.pathLimit && !path.isEmpty then .ok { r with paths := r.paths ++ [path] }
  else .error .misuse

/-- Adds paths behind the last switch. -/
def takePaths (r : Reading) (part : Section) (paths : List String) : Except Stop Reading :=
  paths.foldlM (fun r path => r.takePath part path) r

/-- Reads a switch by its word; if its value has to follow, the switch is left over. -/
def readWord (r : Reading) (part : Section) (text : List Char) : Except Stop (Reading × Option Switch) :=
  match part.ofWord? (text.takeWhile (· != '=')), text.dropWhile (· != '=') with
  | none, _ => .error .misuse
  | some s, [] => if s.hasValue then .ok (r, some s) else (r.turn s).map fun r => (r, none)
  | some s, _ :: value =>
    if s.hasValue then (r.take s (String.ofList value)).map fun r => (r, none) else .error .misuse

/-- Reads switches by their letters; the value of the last one may be joined to it, also with `=`, and if it has to
follow, the switch is left over. -/
def readLetters (r : Reading) (part : Section) : List Char → Except Stop (Reading × Option Switch)
  | [] => .ok (r, none)
  | c :: cs =>
    match part.ofLetter? c with
    | none => .error .misuse
    | some s =>
      if s.hasValue then
        match cs with
        | [] => .ok (r, some s)
        | '=' :: value => (r.take s (String.ofList value)).map fun r => (r, none)
        | value => (r.take s (String.ofList value)).map fun r => (r, none)
      else
        match r.turn s with
        | .error stop => .error stop
        | .ok r => readLetters r part cs

/-- Reads the switches of one argument. -/
def readSwitches (r : Reading) (part : Section) : Argument → Except Stop (Reading × Option Switch)
  | .word text => r.readWord part text
  | .letters text => r.readLetters part text
  | _ => .ok (r, none)

/-- Reads the switches of a part up to the first plain argument or the mark behind the switches; that argument and
what follows it are left over. -/
def readUpToPlain (r : Reading) (part : Section) : List String → Except Stop (Reading × List String)
  | [] => .ok (r, [])
  | a :: rest =>
    match Argument.ofText a with
    | .plain _ => .ok (r, a :: rest)
    | .endOfSwitches => .ok (r, a :: rest)
    | form =>
      match r.settle.bind (·.readSwitches part form) with
      | .error stop => .error stop
      | .ok (r, none) => readUpToPlain r part rest
      | .ok (r, some s) =>
        match rest with
        | [] => .error .misuse
        | value :: rest =>
          if Argument.isValue value then readUpToPlain { r with waiting := some (s, value) } part rest
          else .error .misuse

/-- Reads a part to the end, at most `n` plain arguments being allowed for. -/
def readAll (part : Section) : Nat → Reading → List String → Except Stop Reading
  | n, r, arguments =>
    match r.readUpToPlain part arguments with
    | .error stop => .error stop
    | .ok (r, rest) =>
      match r.settle, rest with
      | .error stop, _ => .error stop
      | .ok r, [] => .ok r
      | .ok r, a :: rest =>
        if Argument.ofText a = .endOfSwitches then r.takePaths part rest
        else
          match n, r.takePath part a with
          | _, .error stop => .error stop
          | 0, .ok _ => .error .misuse
          | n + 1, .ok r => readAll part n r rest

end Reading

end IndentLint.Command
