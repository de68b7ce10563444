import PublishDesk.Text.Digits
import PublishDesk.Text.Hex
import PublishDesk.Text.Lines

/-!
# Numeric addresses

An address of four numbers is written with dots between them. An address of eight numbers is
written as groups of hexadecimal digits with colons between them; two colons stand once for the
groups of zeros that fill up the eight, and the last two groups may be written as four numbers with
dots between them.
-/

namespace PublishDesk.Numeric

/-- A decimal number below 256, without zeros in front. -/
def octet? (cs : List Char) : Option Nat :=
  if !cs.isEmpty && cs.length ≤ 3 && cs.all Char.isDigit &&
      (cs.length == 1 || cs.head? != some '0') && Text.decimalValue cs < 256 then
    some (Text.decimalValue cs)
  else none

/-- Four numbers with dots between them. -/
def dotted? (cs : List Char) : Option (Nat × Nat × Nat × Nat) :=
  match (Text.splitOn '.' cs).map octet? with
  | [some a, some b, some c, some d] => some (a, b, c, d)
  | _ => none

/-- One to four hexadecimal digits. -/
def group? (cs : List Char) : Option Nat :=
  if !cs.isEmpty && cs.length ≤ 4 && cs.all fun c => (Text.hexValue? c).isSome then
    some (cs.foldl (fun n c => n * 16 + (Text.hexValue? c).getD 0) 0)
  else none

/-- The numbers that parts between colons stand for. Only the last part of an address may be
dotted. -/
def groups? (final : Bool) : List (List Char) → Option (List Nat)
  | [] => some []
  | [p] =>
    match group? p, dotted? p with
    | some n, _ => some [n]
    | none, some (a, b, c, d) => if final then some [a * 256 + b, c * 256 + d] else none
    | none, none => none
  | p :: ps => (group? p).bind fun n => (groups? final ps).map (n :: ·)

/-- The parts between single colons; nothing has none. -/
def colonParts (cs : List Char) : List (List Char) :=
  if cs.isEmpty then [] else Text.splitOn ':' cs

/-- The text before the first two colons in a row, and the text behind them. -/
def cutAtGap : List Char → Option (List Char × List Char)
  | ':' :: ':' :: cs => some ([], cs)
  | c :: cs => (cutAtGap cs).map fun r => (c :: r.1, r.2)
  | [] => none

/-- The eight numbers that groups stand for. -/
def grouped? (cs : List Char) : Option (List Nat) :=
  match cutAtGap cs with
  | none => (groups? true (colonParts cs)).filter fun ns => ns.length == 8
  | some (before, after) =>
    match groups? false (colonParts before), groups? true (colonParts after) with
    | some ms, some ns =>
      let missing := 8 - (ms.length + ns.length)
      if missing = 0 then none else some (ms ++ List.replicate missing 0 ++ ns)
    | _, _ => none

/-! ## Written forms -/

/-- The digits of a number in lower case. -/
def hexText (n : Nat) : List Char := Nat.toDigits 16 n

/-- The longest run of zeros, the first of equally long ones: its start and its length. -/
def longestGap (ns : List Nat) : Nat × Nat :=
  let runs := (List.range ns.length).map fun i => (i, ((ns.drop i).takeWhile (· == 0)).length)
  runs.foldl (fun best r => if best.2 < r.2 then r else best) (0, 0)

/-- Groups in their shortest form: two colons stand for the longest run of two zeros or more. -/
def groupedText (ns : List Nat) : List Char :=
  let written (ns : List Nat) := Text.joinWith [':'] (ns.map hexText)
  let (start, length) := longestGap ns
  if length < 2 then written ns
  else written (ns.take start) ++ [':', ':'] ++ written (ns.drop (start + length))

/-- A number of 32 bits as four numbers with dots between them. -/
def dottedText (n : Nat) : List Char :=
  Text.joinWith ['.'] ([n / 0x1000000, n / 0x10000 % 0x100, n / 0x100 % 0x100, n % 0x100].map
    (Nat.toDigits 10))

end PublishDesk.Numeric
