import PublishDesk.Settings.Write
import PublishDesk.Toml.Value

/-!
# Numerals are read back

A natural number is written in decimal digits, without a zero in front of others, and these are
read as the integer that was written (`ofBare?_numeralText`).
-/

namespace PublishDesk.Toml

variable {c : Char} {cs : List Char} {n : Nat}

theorem numeralText_eq (n : Nat) : numeralText n = Nat.toDigits 10 n := by
  rw [numeralText, Nat.toString_eq_repr, Nat.toList_repr]

theorem numeralText_ne_nil (n : Nat) : numeralText n ≠ [] :=
  numeralText_eq n ▸ Nat.toDigits_ne_nil

theorem isDigit_of_mem_numeralText (h : c ∈ numeralText n) : c.isDigit :=
  Nat.isDigit_of_mem_toDigits (by decide) (by decide) (numeralText_eq n ▸ h)

/-- What has another character than digits is not the numeral of a number. -/
theorem numeralText_ne (h : c.isDigit = false) (hmem : c ∈ cs) : numeralText n ≠ cs := by
  rintro rfl
  exact absurd (isDigit_of_mem_numeralText hmem) (Bool.not_eq_true _ ▸ h)

/-- Only the number zero is written with a zero at the front. -/
theorem head?_toDigits (h : 0 < n) : (Nat.toDigits 10 n).head? ≠ some '0' := by
  induction n using Nat.strongRecOn with
  | ind n ih =>
    rw [Nat.toDigits_eq_if (by decide)]
    split
    · next hsmall =>
      have hdigit : ∀ m < 10, 0 < m → m.digitChar ≠ '0' := by decide
      exact fun heq => hdigit n hsmall h (Option.some.inj heq)
    · have ih := ih (n / 10) (by omega) (by omega)
      obtain ⟨d, ds, hds⟩ :=
        List.exists_cons_of_ne_nil (Nat.toDigits_ne_nil (n := n / 10) (b := 10))
      rw [hds] at ih ⊢
      exact ih

theorem grouped?_of_isDigit (hne : cs ≠ []) (h : ∀ c ∈ cs, c.isDigit) :
    grouped? Char.isDigit cs = some cs := by
  induction cs with
  | nil => exact absurd rfl hne
  | cons d ds ih =>
    have hd := h d (.head _)
    cases ds with
    | nil => rw [grouped?, if_pos hd]
    | cons e es =>
      have he : e ≠ '_' := by
        rintro rfl
        exact absurd (h '_' (.tail _ (.head _))) (by decide)
      rw [grouped?]
      · rw [if_pos hd, ih nofun fun c hc => h c (.tail _ hc)]
        rfl
      · nofun
      · exact fun _ h => he (List.cons.inj h).1

theorem wholeDigits?_numeralText (n : Nat) :
    wholeDigits? (numeralText n) = some (numeralText n) := by
  have hfront : ¬((numeralText n).length ≠ 1 ∧ (numeralText n).head? = some '0') := by
    rintro ⟨hlength, hzero⟩
    rw [numeralText_eq] at hlength hzero
    rcases Nat.eq_zero_or_pos n with rfl | hpos
    · exact hlength rfl
    · exact head?_toDigits hpos hzero
  rw [wholeDigits?, grouped?_of_isDigit (numeralText_ne_nil n) fun _ => isDigit_of_mem_numeralText]
  exact if_neg hfront

theorem hexValue?_of_isDigit (h : c.isDigit) : Text.hexValue? c = some (c.toNat - '0'.toNat) := by
  rw [Text.hexValue?, if_pos]
  simpa only [Char.isDigit, Bool.and_eq_true, decide_eq_true_eq, ge_iff_le, Char.le_def] using h

theorem ofDigits_of_isDigit (h : ∀ c ∈ cs, c.isDigit) (m : Nat) :
    cs.foldl (fun n d => n * 10 + (Text.hexValue? d).getD 0) m = Nat.ofDigitChars 10 cs m := by
  induction cs generalizing m with
  | nil => rfl
  | cons c cs ih =>
    rw [List.foldl_cons, hexValue?_of_isDigit (h c (.head _)), ih fun d hd => h d (.tail _ hd),
      Nat.mul_comm]
    rfl

theorem ofDigits_numeralText (n : Nat) : ofDigits 10 (numeralText n) = n := by
  rw [ofDigits, ofDigits_of_isDigit fun _ => isDigit_of_mem_numeralText, numeralText_eq]
  exact Nat.ofDigitChars_toDigits (by decide) (by decide)

theorem decimalInteger?_numeralText (n : Nat) :
    decimalInteger? false (numeralText n) = some (some n) := by
  rw [decimalInteger?, wholeDigits?_numeralText]
  exact congrArg (some ∘ some) (ofDigits_numeralText n)

theorem integer?_numeralText (n : Nat) : integer? (numeralText n) = some (some (n : Int)) := by
  unfold integer?
  split
  · next h => exact absurd h (numeralText_ne (c := 'x') rfl (.tail _ (.head _)))
  · next h => exact absurd h (numeralText_ne (c := 'o') rfl (.tail _ (.head _)))
  · next h => exact absurd h (numeralText_ne (c := 'b') rfl (.tail _ (.head _)))
  · next h => exact absurd h (numeralText_ne (c := '+') rfl (.head _))
  · next h => exact absurd h (numeralText_ne (c := '-') rfl (.head _))
  · rw [decimalInteger?_numeralText]
    rfl

/-- A number that has been written is read as the integer it is. -/
theorem ofBare?_numeralText (n : Nat) :
    Value.ofBare? (numeralText n) = some (.integer (some (n : Int))) := by
  have htrue : numeralText n ≠ "true".toList := numeralText_ne (c := 't') rfl (.head _)
  have hfalse : numeralText n ≠ "false".toList := numeralText_ne (c := 'f') rfl (.head _)
  rw [Value.ofBare?, if_neg htrue, if_neg hfalse, integer?_numeralText]
  rfl

end PublishDesk.Toml
