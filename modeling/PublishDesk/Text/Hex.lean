/-!
# Hexadecimal digits
-/

namespace PublishDesk.Text

/-- A digit of a number below 16, in lower case. -/
def hexDigit (n : Nat) : Char := Nat.digitChar n

/-- The digits of a number, in lower case, without leading zeros. -/
def hexDigits (n : Nat) : List Char := Nat.toDigits 16 n

/-- The value of a digit of either case. -/
def hexValue? (c : Char) : Option Nat :=
  if '0' ≤ c ∧ c ≤ '9' then some (c.toNat - '0'.toNat)
  else if 'a' ≤ c ∧ c ≤ 'f' then some (c.toNat - 'a'.toNat + 10)
  else if 'A' ≤ c ∧ c ≤ 'F' then some (c.toNat - 'A'.toNat + 10)
  else none

/-- Read exactly `k` digits into `n`; the rest of the text is returned with the value. -/
def readHex (n : Nat) : (k : Nat) → List Char → Option (Nat × List Char)
  | 0, cs => some (n, cs)
  | _ + 1, [] => none
  | k + 1, c :: cs => (hexValue? c).bind fun d => readHex (n * 16 + d) k cs

theorem readHex_length {n k v : Nat} {cs rest : List Char} (h : readHex n k cs = some (v, rest)) :
    rest.length + k = cs.length := by
  induction k generalizing n cs with
  | zero => simp_all [readHex]
  | succ k ih =>
    cases cs with
    | nil => simp [readHex] at h
    | cons c cs =>
      simp only [readHex, Option.bind_eq_some_iff] at h
      obtain ⟨d, _, h⟩ := h
      have := ih h
      simp only [List.length_cons]
      omega

end PublishDesk.Text
