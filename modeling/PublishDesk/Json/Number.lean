import PublishDesk.Decimal.Binary64
import PublishDesk.Text.Digits

/-!
# Numbers of JSON

A numeral is what is written; a number is its value. Integers that fit 64 bits are exact. All other
numerals are binary floating-point numbers: the leading digits that fit 64 bits, scaled by a power
of ten with one rounding for each operation. A numeral whose value is not finite has no number.
-/

namespace PublishDesk.Json
open Decimal Text

inductive Number where
  | integer (value : Int)
  | floating (value : Binary64)
deriving DecidableEq, Repr

/-- The parts of a written number. The digits are never empty, except that a numeral need not have
a fraction. -/
structure Numeral where
  negative : Bool
  whole : List Char
  fraction : Option (List Char)
  power : Option (Bool × List Char)
deriving DecidableEq, Repr

/-- The largest natural number of 64 bits. -/
def maxWord : Nat := 0xffffffffffffffff

/-- Take digits into `n` while the result fits 64 bits; the second part holds the digits from the
first one that does not. -/
def takeDigits (n : Nat) : List Char → Nat × List Char
  | [] => (n, [])
  | d :: ds =>
    if n * 10 + digitValue d ≤ maxWord then takeDigits (n * 10 + digitValue d) ds else (n, d :: ds)

/-- `10 ^ k` rounded. -/
def powerOfTen (k : Nat) : Magnitude := (Magnitude.ofNat? (power 10 k)).getD .zero

/-- `m * 10 ^ e`, in steps of at most 308 decimal places. -/
def scale? (m : Magnitude) (e : Int) : Option Magnitude :=
  if 0 ≤ e then
    if e ≤ 308 then m.mul? (powerOfTen e.toNat) else if m.significand = 0 then some m else none
  else if -308 ≤ e then m.div? (powerOfTen (-e).toNat)
  else if m.significand = 0 then some m
  else (m.div? (powerOfTen 308)).bind (scale? · (e + 308))
termination_by (-e).toNat

/-- The largest exponent that a numeral may state. -/
def maxPower : Nat := 0x7fffffff

def Numeral.powerValue (n : Numeral) : Int :=
  match n.power with
  | none => 0
  | some (negative, ds) =>
    let v : Int := Text.decimalValue ds
    if negative then -v else v

/-- The floating-point value of a numeral. -/
def Numeral.floating? (n : Numeral) : Option Magnitude := do
  let (lead, dropped) := takeDigits 0 n.whole
  let (digits, places) := match n.fraction with
    | none => (lead, 0)
    | some ds => let (digits, rest) := takeDigits lead ds; (digits, ds.length - rest.length)
  let m ← Magnitude.ofNat? digits
  if maxPower < n.powerValue.natAbs then
    if digits = 0 ∨ n.powerValue < 0 then some .zero else none
  else scale? m (n.powerValue + dropped.length - places)

/-- The number that a numeral denotes; `none` if it is too large for a floating-point number. -/
def Numeral.number? (n : Numeral) : Option Number :=
  let float := n.floating?.map fun m => .floating (.finite n.negative m)
  match n.fraction, n.power, takeDigits 0 n.whole with
  | none, none, (v, []) =>
    if !n.negative then some (.integer v)
    else if v = 0 ∨ 0x8000000000000000 < v then float
    else some (.integer (-v))
  | _, _, _ => float

end PublishDesk.Json
