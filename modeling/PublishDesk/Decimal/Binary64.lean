/-!
# Binary floating-point numbers of 64 bits

A finite number is a sign and a magnitude `significand * 2 ^ exponent`. `Magnitude.ofRatio?`
rounds a quotient of natural numbers to the nearest magnitude, a tie to the even significand; it
has no answer where the rounded value is beyond the largest finite number. Products, quotients and
decimals are exact rationals rounded by it.
-/

namespace PublishDesk.Decimal

/-- The size of a finite number, `significand * 2 ^ exponent`, in its unique form: the significand
has 53 bits, or fewer at the least exponent, -1074. -/
structure Magnitude where
  significand : Nat
  exponent : Int
deriving DecidableEq, Repr

/-- The power `base ^ e`, or 1 where the exponent is negative. -/
def power (base : Nat) (e : Int) : Nat := Nat.pow base e.toNat

namespace Magnitude

def zero : Magnitude := ⟨0, -1074⟩

/-- The least significand of 53 bits. -/
def leastFull : Nat := 0x10000000000000

/-- The quotient and the remainder of `num / (den * 2 ^ e)`, with the divisor they belong to. -/
def scaled (num den : Nat) (e : Int) : Nat × Nat × Nat :=
  let n := num * power 2 (-e)
  let d := den * power 2 e
  (n / d, n % d, d)

/-- The exponent at which the quotient `num / den` has a significand of 53 bits, or -1074 where it
would have to be smaller. -/
def exponentFor (num den : Nat) : Int :=
  let e : Int := (Nat.log2 num : Int) - Nat.log2 den - 53
  max (if (scaled num den e).1 < 2 * leastFull then e else e + 1) (-1074)

/-- The magnitude nearest to `num / den`, of two equally near ones that with an even significand;
`none` if it would be `2 ^ 1024` or more, or if `den` is zero. -/
def ofRatio? (num den : Nat) : Option Magnitude :=
  if num = 0 then some zero
  else if den = 0 then none
  else
    let e := exponentFor num den
    let r := scaled num den e
    let up := r.2.2 < 2 * r.2.1 || (r.2.2 == 2 * r.2.1 && r.1 % 2 == 1)
    let m := if up then r.1 + 1 else r.1
    let v : Magnitude := if m = 2 * leastFull then ⟨leastFull, e + 1⟩ else ⟨m, e⟩
    if 971 < v.exponent then none else some v

/-- The value as a quotient of natural numbers. -/
def ratio (x : Magnitude) : Nat × Nat :=
  (x.significand * power 2 x.exponent, power 2 (-x.exponent))

/-- The rounded product. -/
def mul? (x y : Magnitude) : Option Magnitude :=
  ofRatio? (x.ratio.1 * y.ratio.1) (x.ratio.2 * y.ratio.2)

/-- The rounded quotient. -/
def div? (x y : Magnitude) : Option Magnitude :=
  ofRatio? (x.ratio.1 * y.ratio.2) (x.ratio.2 * y.ratio.1)

/-- The magnitude nearest to a natural number. -/
def ofNat? (n : Nat) : Option Magnitude := ofRatio? n 1

/-- The magnitude nearest to `digits * 10 ^ e`. Powers far outside the range are decided without
computing them. -/
def ofDecimal? (digits : Nat) (e : Int) : Option Magnitude :=
  let width : Int := (Nat.toDigits 10 digits).length
  if digits = 0 then some zero
  else if 400 < e + width then none
  else if e + width < -400 then some zero
  else ofRatio? (digits * power 10 e) (power 10 (-e))

end Magnitude

/-- A number of the format, infinities and the missing value included. -/
inductive Binary64 where
  | finite (negative : Bool) (magnitude : Magnitude)
  | infinite (negative : Bool)
  | notANumber
deriving DecidableEq, Repr

end PublishDesk.Decimal
