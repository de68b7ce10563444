import PublishDesk.Json.Number
import PublishDesk.Text.Hex
import PublishDesk.Text.Utf8

/-!
# Tokens of JSON

`tokens` cuts a text into the tokens of JSON. It never fails: a token that is not well-formed
carries its fault, because only the reader of the tokens knows whether the fault comes first. A
reader may keep a token's value or skip the token, and the two meet different faults (a lone
surrogate is a fault only where the text is kept), so a token carries both readings.
-/

namespace PublishDesk.Json

/-- Why a text is not JSON: a character that may not stand where it stands, or an early end. -/
inductive Fault where
  | malformed
  | truncated
deriving DecidableEq, Repr

/-- What a reader that keeps the value obtains, and what one that skips it meets. -/
structure Reading (α : Type) where
  kept : Except Fault α
  skipped : Except Fault Unit
deriving Repr

inductive Word where
  | null
  | true
  | false
deriving DecidableEq, Repr

inductive Token where
  | openArray
  | closeArray
  | openObject
  | closeObject
  | comma
  | colon
  | word (value : Except Fault Word)
  | number (value : Reading Number)
  | text (value : Reading (List Char))
  /-- A character that starts no token. -/
  | junk
deriving Repr

/-- The white space of JSON. -/
def isSpace (c : Char) : Bool := c == ' ' || c == '\t' || c == '\r' || c == '\n'

/-- What remains of a text that starts with the letters of a word. -/
def word : List Char → List Char → Except Fault (List Char)
  | [], cs => .ok cs
  | _ :: _, [] => .error .truncated
  | w :: ws, c :: cs => if c = w then word ws cs else .error .malformed

/-! ## Texts -/

/-- The number written by four hexadecimal digits. A text of fewer than four bytes is cut off. -/
def hexFour (cs : List Char) : Except Fault (Nat × List Char) :=
  match Text.readHex 0 4 cs with
  | some r => .ok r
  | none => if Text.Utf8.size cs < 4 then .error .truncated else .error .malformed

/-- The escapes of one letter. -/
def shortEscape? : Char → Option Char
  | '"' => some '"'
  | '\\' => some '\\'
  | '/' => some '/'
  | 'b' => some '\x08'
  | 'f' => some '\x0c'
  | 'n' => some '\n'
  | 'r' => some '\r'
  | 't' => some '\t'
  | _ => none

/-- The second half of a surrogate pair, after its first half `high`. -/
def lowSurrogate (high : Nat) : List Char → Except Fault (Char × List Char)
  | [] => .error .truncated
  | '\\' :: [] => .error .truncated
  | '\\' :: 'u' :: cs =>
    match hexFour cs with
    | .error f => .error f
    | .ok (low, rest) =>
      if 0xdc00 ≤ low ∧ low ≤ 0xdfff then
        .ok (Char.ofNat ((high - 0xd800) * 0x400 + (low - 0xdc00) + 0x10000), rest)
      else .error .malformed
  | _ => .error .malformed

/-- The character that an escape stands for, after its backslash. -/
def readEscape : List Char → Except Fault (Char × List Char)
  | [] => .error .truncated
  | 'u' :: cs =>
    match hexFour cs with
    | .error f => .error f
    | .ok (n, rest) =>
      if 0xdc00 ≤ n ∧ n ≤ 0xdfff then .error .malformed
      else if 0xd800 ≤ n ∧ n ≤ 0xdbff then lowSurrogate n rest
      else .ok (Char.ofNat n, rest)
  | c :: cs => match shortEscape? c with
    | some d => .ok (d, cs)
    | none => .error .malformed

/-- What remains after an escape that is skipped, after its backslash. -/
def skipEscape : List Char → Except Fault (List Char)
  | [] => .error .truncated
  | 'u' :: cs => (hexFour cs).map (·.2)
  | c :: cs => if (shortEscape? c).isSome then .ok cs else .error .malformed

theorem hexFour_length {cs rest : List Char} {n : Nat} (h : hexFour cs = .ok (n, rest)) :
    rest.length < cs.length := by
  unfold hexFour at h
  split at h
  · next r h' =>
    simp only [Except.ok.injEq] at h
    subst h
    have := Text.readHex_length h'
    omega
  · split at h <;> simp at h

theorem lowSurrogate_length {high : Nat} {cs rest : List Char} {c : Char}
    (h : lowSurrogate high cs = .ok (c, rest)) : rest.length < cs.length := by
  unfold lowSurrogate at h
  split at h <;> try simp at h
  split at h
  · simp at h
  · next h' =>
    split at h <;> simp at h
    have := hexFour_length h'
    simp only [← h.2, List.length_cons]
    omega

theorem readEscape_length {cs rest : List Char} {c : Char} (h : readEscape cs = .ok (c, rest)) :
    rest.length < cs.length := by
  unfold readEscape at h
  split at h
  · simp at h
  · split at h
    · simp at h
    · next h' =>
      have := hexFour_length h'
      split at h
      · simp at h
      · split at h
        · have := lowSurrogate_length h
          simp only [List.length_cons]
          omega
        · simp only [Except.ok.injEq, Prod.mk.injEq] at h
          simp only [← h.2, List.length_cons]
          omega
  · split at h
    · simp only [Except.ok.injEq, Prod.mk.injEq] at h
      simp [← h.2]
    · simp at h

theorem skipEscape_length {cs rest : List Char} (h : skipEscape cs = .ok rest) :
    rest.length < cs.length := by
  unfold skipEscape at h
  split at h
  · simp at h
  · next cs =>
    cases h' : hexFour cs with
    | error f => simp [h', Except.map] at h
    | ok r =>
      have : r.2.length < cs.length := hexFour_length h'
      simp only [h', Except.map, Except.ok.injEq] at h
      simp only [← h, List.length_cons]
      omega
  · split at h <;> simp at h
    simp [← h]

/-- The text up to the closing quote, and what remains after it. -/
def readText : List Char → Except Fault (List Char × List Char)
  | [] => .error .truncated
  | '"' :: cs => .ok ([], cs)
  | '\\' :: cs =>
    match _h : readEscape cs with
    | .error f => .error f
    | .ok (c, rest) => (readText rest).map fun r => (c :: r.1, r.2)
  | c :: cs => if c < ' ' then .error .malformed else (readText cs).map fun r => (c :: r.1, r.2)
termination_by cs => cs.length
decreasing_by
  · have := readEscape_length _h
    simp only [List.length_cons]
    omega
  · simp

/-- What remains after the closing quote of a text that is skipped. -/
def skipText : List Char → Except Fault (List Char)
  | [] => .error .truncated
  | '"' :: cs => .ok cs
  | '\\' :: cs =>
    match _h : skipEscape cs with
    | .error f => .error f
    | .ok rest => skipText rest
  | c :: cs => if c < ' ' then .error .malformed else skipText cs
termination_by cs => cs.length
decreasing_by
  · have := skipEscape_length _h
    simp only [List.length_cons]
    omega
  · simp

theorem skipText_length {cs rest : List Char} (h : skipText cs = .ok rest) :
    rest.length < cs.length := by
  fun_induction skipText cs with
  | case1 => simp at h
  | case2 cs => simp_all
  | case3 => simp at h
  | case4 cs r hr ih =>
    have := skipEscape_length hr
    have := ih h
    simp only [List.length_cons]
    omega
  | case5 => simp at h
  | case6 c cs _ _ _ ih =>
    have := ih h
    simp only [List.length_cons]
    omega

/-! ## Numbers -/

/-- Both readings of a number that breaks off: a reader that keeps it finds the end of the text
too early, one that skips it counts the same end as a wrong character. -/
def brokenNumber {α : Type} : List Char → Reading α
  | [] => ⟨.error .truncated, .error .malformed⟩
  | _ :: _ => ⟨.error .malformed, .error .malformed⟩

/-- Digits where at least one is due; the text itself where there is none. -/
def someDigits (cs : List Char) : Except (List Char) (List Char × List Char) :=
  if cs.takeWhile Char.isDigit = [] then .error cs
  else .ok (cs.takeWhile Char.isDigit, cs.dropWhile Char.isDigit)

/-- Whether a text starts with a minus sign, and what follows that. -/
def minusSign : List Char → Bool × List Char
  | '-' :: cs => (true, cs)
  | cs => (false, cs)

/-- The digits before the point. A zero stands alone. -/
def wholePart (cs : List Char) : Except (List Char) (List Char × List Char) :=
  match cs with
  | '0' :: d :: _ => if d.isDigit then .error cs else someDigits cs
  | _ => someDigits cs

def fractionPart : List Char → Except (List Char) (Option (List Char) × List Char)
  | '.' :: cs => (someDigits cs).map fun r => (some r.1, r.2)
  | cs => .ok (none, cs)

/-- The sign of an exponent, and what follows it. -/
def powerSign : List Char → Bool × List Char
  | '+' :: cs => (false, cs)
  | cs => minusSign cs

def powerPart : List Char → Except (List Char) (Option (Bool × List Char) × List Char)
  | 'e' :: cs => (someDigits (powerSign cs).2).map fun r => (some ((powerSign cs).1, r.1), r.2)
  | 'E' :: cs => (someDigits (powerSign cs).2).map fun r => (some ((powerSign cs).1, r.1), r.2)
  | cs => .ok (none, cs)

/-- The numeral at the start of a text, and what remains; or the text left where a digit is
missing. -/
def numeral (cs : List Char) : Except (List Char) (Numeral × List Char) := do
  let w ← wholePart (minusSign cs).2
  let f ← fractionPart w.2
  let p ← powerPart f.2
  return (⟨(minusSign cs).1, w.1, f.1, p.1⟩, p.2)

theorem someDigits_length {cs : List Char} {r : List Char × List Char}
    (h : someDigits cs = .ok r) : r.2.length < cs.length := by
  unfold someDigits at h
  split at h
  · simp at h
  · next hne =>
    simp only [Except.ok.injEq] at h
    have := congrArg List.length (List.takeWhile_append_dropWhile (p := Char.isDigit) (l := cs))
    have := List.length_pos_iff.2 hne
    simp only [List.length_append] at *
    subst h
    simp only
    omega

theorem minusSign_length (cs : List Char) : (minusSign cs).2.length ≤ cs.length := by
  unfold minusSign
  split <;> simp

theorem powerSign_length (cs : List Char) : (powerSign cs).2.length ≤ cs.length := by
  unfold powerSign
  split
  · simp
  · exact minusSign_length _

theorem wholePart_length {cs : List Char} {r : List Char × List Char}
    (h : wholePart cs = .ok r) : r.2.length < cs.length := by
  unfold wholePart at h
  split at h
  · split at h
    · simp at h
    · exact someDigits_length h
  · exact someDigits_length h

theorem fractionPart_length {cs : List Char} {r : Option (List Char) × List Char}
    (h : fractionPart cs = .ok r) : r.2.length ≤ cs.length := by
  unfold fractionPart at h
  split at h
  · next cs =>
    cases h' : someDigits cs with
    | error e => simp [h', Except.map] at h
    | ok r' =>
      have := someDigits_length h'
      simp only [h', Except.map, Except.ok.injEq] at h
      subst h
      simp only [List.length_cons]
      omega
  · simp only [Except.ok.injEq] at h
    subst h
    exact Nat.le_refl _

theorem powerPart_length {cs : List Char} {r : Option (Bool × List Char) × List Char}
    (h : powerPart cs = .ok r) : r.2.length ≤ cs.length := by
  have key : ∀ {cs : List Char} {r : Option (Bool × List Char) × List Char},
      (someDigits (powerSign cs).2).map (fun r => (some ((powerSign cs).1, r.1), r.2)) = .ok r →
        r.2.length ≤ cs.length + 1 := by
    intro cs r h
    cases h' : someDigits (powerSign cs).2 with
    | error e => simp [h', Except.map] at h
    | ok r' =>
      have := someDigits_length h'
      have := powerSign_length cs
      simp only [h', Except.map, Except.ok.injEq] at h
      subst h
      simp only
      omega
  unfold powerPart at h
  split at h
  · exact key h
  · exact key h
  · simp only [Except.ok.injEq] at h
    subst h
    exact Nat.le_refl _

theorem numeral_length {cs : List Char} {r : Numeral × List Char} (h : numeral cs = .ok r) :
    r.2.length < cs.length := by
  unfold numeral at h
  cases hw : wholePart (minusSign cs).2 with
  | error e => simp [hw, bind, Except.bind] at h
  | ok w =>
    cases hf : fractionPart w.2 with
    | error e => simp [hw, hf, bind, Except.bind] at h
    | ok f =>
      cases hp : powerPart f.2 with
      | error e => simp [hw, hf, hp, bind, Except.bind] at h
      | ok p =>
        have := minusSign_length cs
        have := wholePart_length hw
        have := fractionPart_length hf
        have := powerPart_length hp
        simp only [hw, hf, hp, bind, Except.bind, pure, Except.pure, Except.ok.injEq] at h
        subst h
        simp only
        omega

/-! ## Tokens -/

/-- A token and what remains after it. -/
abbrev Cut := Token × List Char

def wordToken (w : Word) (letters cs : List Char) : Cut :=
  match word letters cs with
  | .ok rest => (.word (.ok w), rest)
  | .error f => (.word (.error f), [])

def textToken (cs : List Char) : Cut :=
  let kept := (readText cs).map (·.1)
  match skipText cs with
  | .ok rest => (.text ⟨kept, .ok ()⟩, rest)
  | .error f => (.text ⟨kept, .error f⟩, [])

def numberToken (cs : List Char) : Cut :=
  match numeral cs with
  | .ok (n, rest) =>
    (.number ⟨match n.number? with
      | some v => .ok v
      | none => .error .malformed, .ok ()⟩, rest)
  | .error left => (.number (brokenNumber left), [])

/-- The token that starts with the character `c`. -/
def token (c : Char) (cs : List Char) : Cut :=
  match c with
  | '[' => (.openArray, cs)
  | ']' => (.closeArray, cs)
  | '{' => (.openObject, cs)
  | '}' => (.closeObject, cs)
  | ',' => (.comma, cs)
  | ':' => (.colon, cs)
  | 'n' => wordToken .null ['u', 'l', 'l'] cs
  | 't' => wordToken .true ['r', 'u', 'e'] cs
  | 'f' => wordToken .false ['a', 'l', 's', 'e'] cs
  | '"' => textToken cs
  | c => if c = '-' ∨ c.isDigit then numberToken (c :: cs) else (.junk, cs)

theorem word_length {letters cs rest : List Char} (h : word letters cs = .ok rest) :
    rest.length ≤ cs.length := by
  induction letters generalizing cs with
  | nil => simp_all [word]
  | cons w ws ih =>
    cases cs with
    | nil => simp [word] at h
    | cons c cs =>
      simp only [word] at h
      split at h
      · exact Nat.le_succ_of_le (ih h)
      · simp at h

theorem wordToken_length (w : Word) (letters cs : List Char) :
    (wordToken w letters cs).2.length ≤ cs.length := by
  unfold wordToken
  split
  · next h => exact word_length h
  · simp

theorem textToken_length (cs : List Char) : (textToken cs).2.length ≤ cs.length := by
  unfold textToken
  split
  · next h => exact Nat.le_of_lt (skipText_length h)
  · simp

theorem numberToken_length (c : Char) (cs : List Char) :
    (numberToken (c :: cs)).2.length ≤ cs.length := by
  unfold numberToken
  split
  · next h => exact Nat.le_of_lt_succ (numeral_length h)
  · simp

theorem token_length (c : Char) (cs : List Char) : (token c cs).2.length ≤ cs.length := by
  unfold token
  split <;> first
    | exact Nat.le_refl _
    | exact wordToken_length ..
    | exact textToken_length ..
    | (split
       · exact numberToken_length ..
       · exact Nat.le_refl _)

/-- The tokens of a text. After a token that is not well-formed nothing more is cut. -/
def tokens : List Char → List Token
  | [] => []
  | c :: cs => if isSpace c then tokens cs else (token c cs).1 :: tokens (token c cs).2
termination_by cs => cs.length
decreasing_by
  · simp
  · exact Nat.lt_succ_of_le (token_length c cs)

end PublishDesk.Json
