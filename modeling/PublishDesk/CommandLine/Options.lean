import PublishDesk.Text.Digits

/-!
# Options of a command line

Options come as `--name value`, `--name=value`, `-n value`, `-nvalue` or `-n=value`, and several
short ones without values may share a dash. A value that follows as a word of its own does not
start with a dash, unless it is nothing but one. Options are read up to the first word that is
none.
-/

namespace PublishDesk.CommandLine

/-- What an option does. -/
inductive OptionKind where
  | flag
  | valued
  /-- It asks for a text about the program; nothing after it counts. -/
  | request
deriving DecidableEq, Repr

structure OptionShape where
  name : String
  short : Option Char := none
  kind : OptionKind := .valued
deriving DecidableEq, Repr

/-- Options as they were given, with their values. -/
abbrev Given := List (String × String)

/-- What has been read of a command line. -/
inductive Reading where
  /-- A text about the program was asked for. -/
  | requested (name : String)
  /-- The options, and the first word that is no option with the words behind it. -/
  | options (given : Given) (rest : Option (String × List String))

/-- Put an option in front of what has been read behind it. -/
def Reading.add (name value : String) : Reading → Reading
  | .requested n => .requested n
  | .options given rest => .options ((name, value) :: given) rest

/-- Whether a word may be the value of an option. -/
def isValue (word : String) : Bool := word == "-" || word.toList.head? != some '-'

/-- Read the letters of a word of short options, given how the words behind it are read. -/
def readLetters (shapes : List OptionShape) (next : List String → Option Reading)
    (words : List String) : List Char → Option Reading
  | [] => next words
  | c :: cs => do
    let shape ← shapes.find? fun s => s.short == some c
    match shape.kind with
    | .request => return .requested shape.name
    | .flag =>
      let r ← readLetters shapes next words cs
      return r.add shape.name ""
    | .valued =>
      match cs, words with
      | '=' :: value, _ => return (← next words).add shape.name (String.ofList value)
      | c :: cs, _ => return (← next words).add shape.name (String.ofList (c :: cs))
      | [], [] => none
      | [], value :: words =>
        if isValue value then return (← next words).add shape.name value else none

/-- Read a long option, given the word behind the dashes. -/
def readLong (shapes : List OptionShape) (next : List String → Option Reading)
    (words : List String) (word : List Char) : Option Reading := do
  let name := String.ofList (word.takeWhile (· != '='))
  let attached? := (word.dropWhile (· != '=')).tail?
  let shape ← shapes.find? fun s => s.name == name
  match shape.kind, attached?, words with
  | .request, none, _ => return .requested shape.name
  | .flag, none, _ => return (← next words).add shape.name ""
  | .request, some _, _ | .flag, some _, _ => none
  | .valued, some value, _ => return (← next words).add shape.name (String.ofList value)
  | .valued, none, [] => none
  | .valued, none, value :: words =>
    if isValue value then return (← next words).add shape.name value else none

/-- Read words, at most `fuel` of them as options. -/
def readWords (shapes : List OptionShape) : (fuel : Nat) → List String → Option Reading
  | _, [] => some (.options [] none)
  | 0, _ :: _ => none
  | fuel + 1, word :: words =>
    match word.toList with
    | ['-', '-'] => if words.isEmpty then some (.options [] none) else none
    | '-' :: '-' :: name => readLong shapes (readWords shapes fuel) words name
    | '-' :: c :: letters => readLetters shapes (readWords shapes fuel) words (c :: letters)
    | _ => some (.options [] (some (word, words)))

/-- Read the options at the front of a command line. No option may be given twice. -/
def readOptions (shapes : List OptionShape) (words : List String) : Option Reading := do
  match ← readWords shapes words.length words with
  | .options given rest =>
    if (given.map (·.1)).Nodup then return .options given rest else none
  | r => return r

/-! ## Values -/

/-- A path; it must not be empty. -/
def pathValue? (text : String) : Option (List Char) :=
  if text.isEmpty then none else some text.toList

/-- A natural number in decimal digits, perhaps with a plus sign, up to a maximum. -/
def natValue? (most : Nat) (text : String) : Option Nat :=
  let digits := match text.toList with
    | '+' :: ds => ds
    | ds => ds
  if digits.isEmpty || !digits.all Char.isDigit then none
  else
    let n := Text.decimalValue digits
    if n ≤ most then some n else none

end PublishDesk.CommandLine
