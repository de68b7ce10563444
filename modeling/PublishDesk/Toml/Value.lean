import PublishDesk.Decimal.Binary64
import PublishDesk.Text.Hex
import PublishDesk.Text.Lines
import PublishDesk.Toml.Moment

/-!
# Values of TOML

`Value.ofBare?` reads the values that are written without quotes or brackets: booleans, integers,
floating-point numbers, dates and times. Integers have any size; what does not fit is a matter of
the reader of the value. So is an integer whose digits are not those of a number: with underscores
in it, only the characters next to these decide whether the text is taken for an integer
(`isGrouped`). A table that is complete has its entries in the order of their keys (`sorted`).
-/

namespace PublishDesk.Toml
open Decimal

/-- The name of an entry. -/
abbrev Key := List Char

inductive Value where
  | text (value : List Char)
  | flag (value : Bool)
  /-- An integer; `none` if what is written is no number. -/
  | integer (value : Option Int)
  /-- A floating-point number; `none` if it is written with digits and too large. -/
  | floating (value : Option Binary64)
  /-- A date, a time of day or both, as written. -/
  | moment (value : List Char)
  | array (items : List Value)
  | table (entries : List (Key × Value))

/-- Whether a key comes before another, or is the same: by code points. -/
def keyLe : Key → Key → Bool
  | [], _ => true
  | _ :: _, [] => false
  | c :: cs, d :: ds => c < d || (c == d && keyLe cs ds)

/-- Entries in the order of their keys. -/
def sorted {α : Type} (entries : List (Key × α)) : List (Key × α) :=
  entries.mergeSort fun a b => keyLe a.1 b.1

/-- Digits with single underscores between them; the underscores are dropped. -/
def grouped? (isDigit : Char → Bool) : List Char → Option (List Char)
  | [] => none
  | [d] => if isDigit d then some [d] else none
  | d :: '_' :: cs => if isDigit d then (grouped? isDigit cs).map (d :: ·) else none
  | d :: cs => if isDigit d then (grouped? isDigit cs).map (d :: ·) else none

/-- The number that digits of a base write. -/
def ofDigits (base : Nat) (ds : List Char) : Nat :=
  ds.foldl (fun n d => n * base + (Text.hexValue? d).getD 0) 0

/-- Whether a digit belongs to a base up to 16. -/
def isDigitOf (base : Nat) (c : Char) : Bool :=
  match Text.hexValue? c with
  | some d => d < base
  | none => false

/-- A sign, if there is one, and what follows. -/
def sign : List Char → Bool × List Char
  | '+' :: cs => (false, cs)
  | '-' :: cs => (true, cs)
  | cs => (false, cs)

/-- The digits of a decimal integer: grouped, and no zero in front of others. -/
def wholeDigits? (cs : List Char) : Option (List Char) := do
  let ds ← grouped? Char.isDigit cs
  if ds.length ≠ 1 ∧ ds.head? = some '0' then none else some ds

/-- The integer of a base with a mark of its own; without digits it is no number. -/
def marked? (base : Nat) (cs : List Char) : Option (Option Int) :=
  if cs.isEmpty then some none
  else (grouped? (isDigitOf base) cs).map fun ds => some (ofDigits base ds : Int)

/-- Whether a piece between underscores has digits next to them. -/
def isPiece (piece : List Char) : Bool :=
  piece.head?.any (isDigitOf 16) && piece.getLast?.any (isDigitOf 16)

/-- Whether the pieces of a text between its underscores are taken for an integer: digits first,
which only a sign can stand in for, and digits next to each underscore. What follows the first
character of the last piece may be anything. -/
def isGrouped (signed : Bool) : List (List Char) → Bool
  | [] | [_] => false
  | first :: rest =>
    first.all Char.isDigit && first.head? != some '0' && (signed || !first.isEmpty) &&
      rest.dropLast.all isPiece && rest.getLast?.any fun l => l.head?.any (isDigitOf 16)

/-- The characters of a number with a fraction or an exponent. -/
def isFractionMark (c : Char) : Bool := c == '.' || c == 'e' || c == 'E'

/-- The decimal integer after its sign. -/
def decimalInteger? (signed : Bool) (cs : List Char) : Option (Option Nat) :=
  match wholeDigits? cs with
  | some ds => some (some (ofDigits 10 ds))
  | none =>
    let pieces := Text.splitOn '_' cs
    if isGrouped signed pieces && !cs.any isFractionMark then
      let ds := pieces.flatten
      some (if ds.all Char.isDigit then some (ofDigits 10 ds) else none)
    else none

def integer? (cs : List Char) : Option (Option Int) :=
  match cs with
  | '0' :: 'x' :: cs => marked? 16 cs
  | '0' :: 'o' :: cs => marked? 8 cs
  | '0' :: 'b' :: cs => marked? 2 cs
  | '+' :: cs => (decimalInteger? true cs).map fun n => n.map fun n => (n : Int)
  | '-' :: cs => (decimalInteger? true cs).map fun n => n.map fun n => -(n : Int)
  | cs => (decimalInteger? false cs).map fun n => n.map fun n => (n : Int)

/-- The decimal exponent after its letter. -/
def exponent? (cs : List Char) : Option Int :=
  let (negative, cs) := sign cs
  (grouped? Char.isDigit cs).map fun ds =>
    if negative then -(ofDigits 10 ds : Int) else (ofDigits 10 ds : Int)

/-- A decimal with a fraction or an exponent: its digits and the power of ten they are scaled by.
The digits before the fraction are read by `whole?`. -/
def decimal? (whole? : List Char → Option (List Char)) (cs : List Char) : Option (Nat × Int) := do
  let isMark (c : Char) : Bool := c == 'e' || c == 'E'
  let mantissa := cs.takeWhile fun c => !isMark c
  let power ← match cs.dropWhile fun c => !isMark c with
    | [] => some none
    | _ :: cs => (exponent? cs).map some
  match mantissa.dropWhile (· != '.') with
  | [] => do
    let ds ← whole? mantissa
    let power ← power
    return (ofDigits 10 ds, power)
  | _ :: fraction => do
    let ds ← whole? (mantissa.takeWhile (· != '.'))
    let fs ← grouped? Char.isDigit fraction
    return (ofDigits 10 (ds ++ fs), power.getD 0 - fs.length)

/-- The decimal after its sign. As in an integer, a sign may have an underscore after it, and then
zeros may stand in front of other digits. -/
def signedDecimal? : List Char → Option (Nat × Int)
  | '+' :: '_' :: cs | '-' :: '_' :: cs => decimal? (grouped? Char.isDigit) cs
  | cs => decimal? wholeDigits? (sign cs).2

def floating? (cs : List Char) : Option (Option Binary64) :=
  let (negative, ds) := sign cs
  if ds = "inf".toList then some (some (.infinite negative))
  else if ds = "nan".toList then some (some .notANumber)
  else (signedDecimal? cs).map fun d => (Magnitude.ofDecimal? d.1 d.2).map (.finite negative)

/-- The value that is written by characters other than delimiters. -/
def Value.ofBare? (cs : List Char) : Option Value :=
  if cs = "true".toList then some (.flag true)
  else if cs = "false".toList then some (.flag false)
  else (integer? cs).map .integer <|> (floating? cs).map .floating <|>
    if Moment.isMoment cs then some (.moment cs) else none

end PublishDesk.Toml
