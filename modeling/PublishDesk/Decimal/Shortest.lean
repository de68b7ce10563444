import PublishDesk.Decimal.Binary64

/-!
# Shortest decimal digits

The digits of a floating-point number are the fewest that read back to it, and among those the
nearest to its exact value. `Layout` holds a format's decisions: how the digits are written, and
which way a value goes that lies half-way between two of them.
-/

namespace PublishDesk.Decimal

/-- The decimal `digits * 10 ^ power`. -/
structure Scientific where
  digits : Nat
  power : Int
deriving DecidableEq, Repr

/-- Which of two equally near neighbours is taken: the even one, or the one above. -/
inductive Tie where
  | even
  | up
deriving DecidableEq, Repr

/-- Whether the lower neighbour `d` is taken at a tie. -/
def Tie.takesLower : Tie → Nat → Bool
  | .even, d => d % 2 == 0
  | .up, _ => false

namespace Magnitude

/-- The value and the ends of the interval of reals that round to it, over the common denominator
`2 ^ k`: lower end, value, upper end, denominator. -/
def interval (x : Magnitude) : Nat × Nat × Nat × Nat :=
  let below := if x.significand = leastFull ∧ -1074 < x.exponent then 1 else 2
  let e := x.exponent - 2
  let s := power 2 e
  ((4 * x.significand - below) * s, 4 * x.significand * s, (4 * x.significand + 2) * s,
    power 2 (-e))

/-- Whether the decimal `d * 10 ^ e` rounds to `x`. The ends of the interval belong to it when the
significand is even. -/
def readsBack (x : Magnitude) (d : Nat) (e : Int) : Bool :=
  let i := x.interval
  let p := d * power 10 e * i.2.2.2
  let q := power 10 (-e)
  if x.significand % 2 = 0 then i.1 * q ≤ p && p ≤ i.2.2.1 * q else i.1 * q < p && p < i.2.2.1 * q

/-- The decimals next to `x`, below and above, on the grid of multiples of `10 ^ e`, and whether
the lower one is preferred. -/
def neighbours (x : Magnitude) (tie : Tie) (e : Int) : Nat × Nat × Bool :=
  let i := x.interval
  let n := i.2.1 * power 10 (-e)
  let d := i.2.2.2 * power 10 e
  (n / d, if n % d = 0 then n / d else n / d + 1,
    2 * (n % d) < d || (2 * (n % d) == d && tie.takesLower (n / d)))

/-- The decimal on the grid of multiples of `10 ^ power` that reads back to `x`, the nearer one
where both neighbours do. -/
def onGrid? (x : Magnitude) (tie : Tie) (power : Int) : Option Scientific :=
  let n := x.neighbours tie power
  match x.readsBack n.1 power, x.readsBack n.2.1 power with
  | true, true => some ⟨if n.2.2 then n.1 else n.2.1, power⟩
  | true, false => some ⟨n.1, power⟩
  | false, true => some ⟨n.2.1, power⟩
  | false, false => none

/-- An upper bound of the decimal exponent: the value is below `10 ^ top`. -/
def top (x : Magnitude) : Int :=
  (x.exponent + Nat.log2 x.significand + 1) * 30103 / 100000 + 1

/-- The first hit on finer and finer grids. -/
def search (x : Magnitude) (tie : Tie) (power : Int) : Nat → Scientific
  | 0 => ⟨0, 0⟩
  | fuel + 1 => (x.onGrid? tie power).getD (x.search tie (power - 1) fuel)

/-- The fewest digits that read back to `x`; twenty grids below the top always suffice. -/
def shortest (x : Magnitude) (tie : Tie) : Scientific :=
  if x.significand = 0 then ⟨0, 0⟩ else
    let s := x.search tie x.top 22
    dropZeros s.digits s.power 20
where
  /-- Take the trailing zeros off the digits. -/
  dropZeros (digits : Nat) (power : Int) : Nat → Scientific
    | 0 => ⟨digits, power⟩
    | fuel + 1 =>
      if digits % 10 = 0 ∧ digits ≠ 0 then dropZeros (digits / 10) (power + 1) fuel
      else ⟨digits, power⟩

end Magnitude

/-- How a format writes a number: the choice at a tie, the scientific exponents that are written
positionally, and the texts of the values that are not finite. -/
structure Layout where
  tie : Tie
  positional : Int → Bool
  infinity : String
  notANumber : String

namespace Scientific

/-- The decimal with a point and no exponent; at least one digit stands on each side. -/
def positional (s : Scientific) : List Char :=
  let ds := Nat.toDigits 10 s.digits
  if 0 ≤ s.power then ds ++ List.replicate s.power.toNat '0' ++ ['.', '0']
  else
    let places := (-s.power).toNat
    let ds := List.replicate (places + 1 - ds.length) '0' ++ ds
    ds.take (ds.length - places) ++ ['.'] ++ ds.drop (ds.length - places)

/-- The exponent of the leading digit. -/
def exponent (s : Scientific) : Int := s.power + (Nat.toDigits 10 s.digits).length - 1

/-- The decimal with one digit before the point, if it has others, and a signed exponent. -/
def exponential (s : Scientific) : List Char :=
  let ds := Nat.toDigits 10 s.digits
  let e := s.exponent
  let mantissa := match ds with
    | [] => []
    | [d] => [d]
    | d :: rest => d :: '.' :: rest
  mantissa ++ ['e', if e < 0 then '-' else '+'] ++ Nat.toDigits 10 e.natAbs

end Scientific

/-- The text of a number in a layout. -/
def Binary64.text (l : Layout) : Binary64 → List Char
  | .notANumber => l.notANumber.toList
  | .infinite negative => (if negative then ['-'] else []) ++ l.infinity.toList
  | .finite negative m =>
    let s := m.shortest l.tie
    (if negative then ['-'] else []) ++
      (if m.significand = 0 ∨ l.positional s.exponent then s.positional else s.exponential)

/-- Exponents from -5 to 15 are written positionally, and a tie goes to the even digit. -/
def mixedLayout : Layout := ⟨.even, fun e => -5 ≤ e && e < 16, "inf", "NaN"⟩

/-- No exponent is ever written, and a tie goes up. -/
def positionalLayout : Layout := ⟨.up, fun _ => true, "inf", "NaN"⟩

end PublishDesk.Decimal
