import PublishDesk.Json.Value
import PublishDesk.Proofs.Json.Lenient
import PublishDesk.Proofs.Json.Spelling

/-!
# The grammar of JSON

A value may be written in many ways: with white space around its tokens, with escapes in its texts,
and with any numeral of its numbers. `Value.Spells` is the grammar: it says that a value is written
at the front of a text, and what follows it there. The document of a text is that of the value that
it spells, however the value is written (`Value.IsWritten.read`).

A text never holds half of a surrogate pair, and a numeral denotes a number; texts that break one of
these rules spell no value.
-/

namespace PublishDesk.Json

/-! ## Tokens -/

inductive Blank : List Char → List Char → Prop
  | none {cs : List Char} : Blank cs cs
  | more {c : Char} {cs rest : List Char} : isSpace c → Blank cs rest → Blank (c :: cs) rest

/-- Four hexadecimal digits, with the number that they stand for. -/
inductive HexSpells : Nat → List Char → List Char → Prop
  | four {a b c d : Char} {w x y z : Nat} {rest : List Char} :
    Text.hexValue? a = some w → Text.hexValue? b = some x → Text.hexValue? c = some y →
      Text.hexValue? d = some z →
      HexSpells (((w * 16 + x) * 16 + y) * 16 + z) (a :: b :: c :: d :: rest) rest

/-- A character of a text stands for itself, or an escape stands for it. -/
inductive CharSpells : Char → List Char → List Char → Prop
  | plain {c : Char} {rest : List Char} :
    c ≠ '"' → c ≠ '\\' → ¬ c < ' ' → CharSpells c (c :: rest) rest
  | short {c e : Char} {rest : List Char} :
    shortEscape? e = some c → CharSpells c ('\\' :: e :: rest) rest
  | code {n : Nat} {cs rest : List Char} :
    HexSpells n cs rest → ¬ (0xd800 ≤ n ∧ n ≤ 0xdfff) →
      CharSpells (Char.ofNat n) ('\\' :: 'u' :: cs) rest
  | pair {high low : Nat} {cs ds rest : List Char} :
    HexSpells high cs ('\\' :: 'u' :: ds) → 0xd800 ≤ high ∧ high ≤ 0xdbff →
      HexSpells low ds rest → 0xdc00 ≤ low ∧ low ≤ 0xdfff →
      CharSpells (Char.ofNat ((high - 0xd800) * 0x400 + (low - 0xdc00) + 0x10000))
        ('\\' :: 'u' :: cs) rest

/-- The characters of a text, and its closing quote. -/
inductive TextSpells : List Char → List Char → List Char → Prop
  | done {rest : List Char} : TextSpells [] ('"' :: rest) rest
  | more {c : Char} {t cs ds rest : List Char} :
    CharSpells c cs ds → TextSpells t ds rest → TextSpells (c :: t) cs rest

structure DigitsSpell (ds cs rest : List Char) : Prop where
  nonempty : ds ≠ []
  digits : ∀ d ∈ ds, d.isDigit
  text : cs = ds ++ rest

inductive MinusSpells : Bool → List Char → List Char → Prop
  | none {cs : List Char} : MinusSpells false cs cs
  | minus {cs : List Char} : MinusSpells true ('-' :: cs) cs

inductive FractionSpells : Option (List Char) → List Char → List Char → Prop
  | none {cs : List Char} : FractionSpells none cs cs
  | some {ds cs rest : List Char} :
    DigitsSpell ds cs rest → FractionSpells (some ds) ('.' :: cs) rest

inductive PowerSpells : Option (Bool × List Char) → List Char → List Char → Prop
  | none {cs : List Char} : PowerSpells none cs cs
  | plus {e : Char} {ds cs rest : List Char} :
    e = 'e' ∨ e = 'E' → DigitsSpell ds cs rest →
      PowerSpells (some (false, ds)) (e :: '+' :: cs) rest
  | some {e : Char} {negative : Bool} {ds cs cs' rest : List Char} :
    e = 'e' ∨ e = 'E' → MinusSpells negative cs cs' → DigitsSpell ds cs' rest →
      PowerSpells (some (negative, ds)) (e :: cs) rest

/-- A numeral: a sign, digits of which a leading zero stands alone, a fraction and a power. -/
inductive Numeral.Spells (n : Numeral) : List Char → List Char → Prop
  | intro {a b c d rest : List Char} : MinusSpells n.negative a b → DigitsSpell n.whole b c →
      (n.whole.head? = some '0' → n.whole = ['0']) → FractionSpells n.fraction c d →
      PowerSpells n.power d rest → Spells n a rest

/-! ## Values -/

mutual

/-- A value is written at the front of a text, and this follows it. -/
inductive Value.Spells : Value → List Char → List Char → Prop
  | null {rest : List Char} : Value.Spells .null ('n' :: 'u' :: 'l' :: 'l' :: rest) rest
  | yes {rest : List Char} : Value.Spells (.flag true) ('t' :: 'r' :: 'u' :: 'e' :: rest) rest
  | no {rest : List Char} :
    Value.Spells (.flag false) ('f' :: 'a' :: 'l' :: 's' :: 'e' :: rest) rest
  | number {n : Numeral} {x : Number} {cs rest : List Char} :
    n.Spells cs rest → n.number? = some x → Value.Spells (.number x) cs rest
  | text {t cs rest : List Char} : TextSpells t cs rest → Value.Spells (.text t) ('"' :: cs) rest
  | array {items : List Value} {cs rest : List Char} :
    ItemsSpell items cs rest → Value.Spells (.array items) ('[' :: cs) rest
  | object {members : List (List Char × Value)} {cs rest : List Char} :
    MembersSpell members cs rest → Value.Spells (.object members) ('{' :: cs) rest

/-- The items of an array, and its closing bracket. -/
inductive ItemsSpell : List Value → List Char → List Char → Prop
  | none {cs rest : List Char} : Blank cs (']' :: rest) → ItemsSpell [] cs rest
  | some {v : Value} {vs : List Value} {a b c d rest : List Char} :
    Blank a b → Value.Spells v b c → Blank c d → MoreItems vs d rest → ItemsSpell (v :: vs) a rest

/-- The items that follow another one. -/
inductive MoreItems : List Value → List Char → List Char → Prop
  | closed {rest : List Char} : MoreItems [] (']' :: rest) rest
  | comma {v : Value} {vs : List Value} {cs rest : List Char} :
    ItemsSpell (v :: vs) cs rest → MoreItems (v :: vs) (',' :: cs) rest

/-- The members of an object, and its closing brace. -/
inductive MembersSpell : List (List Char × Value) → List Char → List Char → Prop
  | none {cs rest : List Char} : Blank cs ('}' :: rest) → MembersSpell [] cs rest
  | some {n : List Char} {v : Value} {ms : List (List Char × Value)}
    {a b c d e f g rest : List Char} :
    Blank a ('"' :: b) → TextSpells n b c → Blank c (':' :: d) → Blank d e → Value.Spells v e f →
      Blank f g → MoreMembers ms g rest → MembersSpell ((n, v) :: ms) a rest

/-- The members that follow another one. -/
inductive MoreMembers : List (List Char × Value) → List Char → List Char → Prop
  | closed {rest : List Char} : MoreMembers [] ('}' :: rest) rest
  | comma {m : List Char × Value} {ms : List (List Char × Value)} {cs rest : List Char} :
    MembersSpell (m :: ms) cs rest → MoreMembers (m :: ms) (',' :: cs) rest

end

/-- A text is that of a value, with white space around it. -/
inductive Value.IsWritten (v : Value) : List Char → Prop
  | intro {a b c : List Char} : Blank a b → v.Spells b c → Blank c [] → IsWritten v a

/-! ## Documents of values -/

mutual

/-- The document of a value. -/
def Value.doc : Value → Doc
  | .null => .word (.ok .null)
  | .flag true => .word (.ok .true)
  | .flag false => .word (.ok .false)
  | .number n => .number ⟨.ok n, .ok ()⟩
  | .text t => .text ⟨.ok t, .ok ()⟩
  | .array items => .array (docItems items)
  | .object members => .object (docMembers members)

def docItems : List Value → Items
  | [] => .closed
  | v :: vs => .cons v.doc (docItems vs)

def docMembers : List (List Char × Value) → Members
  | [] => .closed
  | (n, v) :: ms => .cons ⟨.ok n, .ok ()⟩ v.doc (docMembers ms)

end

mutual

theorem Value.isWhole_doc : (v : Value) → v.doc.isWhole
  | .null | .flag true | .flag false | .number _ | .text _ => rfl
  | .array items => isWhole_docItems items
  | .object members => isWhole_docMembers members

theorem isWhole_docItems : (items : List Value) → (docItems items).isWhole
  | [] => rfl
  | v :: vs => Bool.and_eq_true_iff.2 ⟨v.isWhole_doc, isWhole_docItems vs⟩

theorem isWhole_docMembers : (members : List (List Char × Value)) → (docMembers members).isWhole
  | [] => rfl
  | (_, v) :: ms => Bool.and_eq_true_iff.2 ⟨v.isWhole_doc, isWhole_docMembers ms⟩

end

/-! ## Marks and words -/

/-- A mark ends with its character. -/
theorem tokens_mark {c : Char} {t : Token} (hc : isSpace c = false)
    (h : ∀ cs, token c cs = (t, cs)) (cs : List Char) : tokens (c :: cs) = t :: tokens cs := by
  rw [tokens, hc, if_neg Bool.false_ne_true, h]

theorem tokens_comma (cs : List Char) : tokens (',' :: cs) = .comma :: tokens cs :=
  tokens_mark rfl (fun _ => rfl) cs

theorem tokens_colon (cs : List Char) : tokens (':' :: cs) = .colon :: tokens cs :=
  tokens_mark rfl (fun _ => rfl) cs

theorem tokens_openArray (cs : List Char) : tokens ('[' :: cs) = .openArray :: tokens cs :=
  tokens_mark rfl (fun _ => rfl) cs

theorem tokens_closeArray (cs : List Char) : tokens (']' :: cs) = .closeArray :: tokens cs :=
  tokens_mark rfl (fun _ => rfl) cs

theorem tokens_openObject (cs : List Char) : tokens ('{' :: cs) = .openObject :: tokens cs :=
  tokens_mark rfl (fun _ => rfl) cs

theorem tokens_closeObject (cs : List Char) : tokens ('}' :: cs) = .closeObject :: tokens cs :=
  tokens_mark rfl (fun _ => rfl) cs

theorem tokens_word (c : Char) (letters : List Char) {w : Word} (hc : isSpace c = false)
    (h : ∀ cs, token c cs = wordToken w letters cs) (cs : List Char) :
    tokens (c :: (letters ++ cs)) = .word (.ok w) :: tokens cs := by
  have hword : word letters (letters ++ cs) = .ok cs := by
    clear h
    induction letters with
    | nil => rfl
    | cons l ls ih => rw [List.cons_append, word, if_pos rfl, ih]
  rw [tokens, hc, if_neg Bool.false_ne_true, h, wordToken, hword]

/-! ## White space and texts -/

theorem Blank.tokens {cs rest : List Char} (h : Blank cs rest) : tokens cs = tokens rest := by
  induction h with
  | none => rfl
  | more hc _ ih => rw [Json.tokens, if_pos hc, ih]

theorem HexSpells.hexFour {n : Nat} {cs rest : List Char} (h : HexSpells n cs rest) :
    hexFour cs = .ok (n, rest) := by
  cases h with
  | four ha hb hc hd => simp [Json.hexFour, Text.readHex, ha, hb, hc, hd]

theorem CharSpells.readText {c : Char} {cs rest : List Char} (h : CharSpells c cs rest) :
    readText cs = (readText rest).map fun r => (c :: r.1, r.2) := by
  cases h with
  | plain hquote hslash hc =>
    rw [Json.readText, if_neg hc]
    · exact hquote
    · exact hslash
  | @short _ e _ he =>
    refine readText_of_escape ?_
    have hu : e ≠ 'u' := by
      rintro rfl
      cases he
    unfold readEscape
    split
    · next heq => cases heq
    · next heq => exact absurd (List.cons.inj heq).1 hu
    · next heq =>
      obtain ⟨rfl, rfl⟩ := List.cons.inj heq
      rw [he]
  | @code n _ _ hn hrange =>
    refine readText_of_escape ?_
    rw [readEscape, hn.hexFour]
    have hlow : ¬ (0xdc00 ≤ n ∧ n ≤ 0xdfff) := fun h => hrange ⟨by omega, h.2⟩
    have hhigh : ¬ (0xd800 ≤ n ∧ n ≤ 0xdbff) := fun h => hrange ⟨h.1, by omega⟩
    simp only [if_neg hlow, if_neg hhigh]
  | @pair high _ _ _ _ hhigh hhighs hlow hlows =>
    refine readText_of_escape ?_
    rw [readEscape, hhigh.hexFour]
    have hnot : ¬ (0xdc00 ≤ high ∧ high ≤ 0xdfff) := fun h => absurd hhighs.2 (by omega)
    simp only [if_neg hnot, if_pos hhighs]
    rw [lowSurrogate, hlow.hexFour]
    exact if_pos hlows

theorem TextSpells.readText {t cs rest : List Char} (h : TextSpells t cs rest) :
    readText cs = .ok (t, rest) := by
  induction h with
  | done => rw [Json.readText]
  | more hc _ ih => rw [hc.readText, ih]; rfl

theorem TextSpells.tokens {t cs rest : List Char} (h : TextSpells t cs rest) :
    tokens ('"' :: cs) = .text ⟨.ok t, .ok ()⟩ :: tokens rest := by
  have htoken : token '"' cs = (.text ⟨.ok t, .ok ()⟩, rest) := by
    rw [token, textToken, h.readText, skipText_of_readText h.readText]
    rfl
  rw [Json.tokens, if_neg (by decide), htoken]

/-! ## Numbers

A reader takes the longest numeral that it finds, so a numeral must not go on where it is said to
end. Between its parts no digit may follow the digits of the part before.
-/

/-- No digits go on with this text. -/
def Stops (cs : List Char) : Prop := ∀ c ∈ cs.head?, c.isDigit = false

/-- No numeral goes on with this text. -/
def Ends (cs : List Char) : Prop :=
  ∀ c ∈ cs.head?, c.isDigit = false ∧ c ≠ '.' ∧ c ≠ 'e' ∧ c ≠ 'E'

theorem Stops.cons {c : Char} (h : c.isDigit = false) (cs : List Char) : Stops (c :: cs) := by
  rintro d hd
  obtain rfl := Option.some.inj hd
  exact h

theorem Ends.cons {c : Char} (h : c.isDigit = false ∧ c ≠ '.' ∧ c ≠ 'e' ∧ c ≠ 'E')
    (cs : List Char) : Ends (c :: cs) := by
  rintro d hd
  obtain rfl := Option.some.inj hd
  exact h

theorem Ends.nil : Ends [] := nofun

theorem Ends.stops {cs : List Char} (h : Ends cs) : Stops cs := fun c hc => (h c hc).1

theorem DigitsSpell.someDigits {ds cs rest : List Char} (h : DigitsSpell ds cs rest)
    (hrest : Stops rest) : someDigits cs = .ok (ds, rest) := by
  have htake : rest.takeWhile Char.isDigit = [] ∧ rest.dropWhile Char.isDigit = rest := by
    cases rest with
    | nil => exact ⟨rfl, rfl⟩
    | cons c rest =>
      have hc := Bool.eq_false_iff.1 (hrest c rfl)
      exact ⟨List.takeWhile_cons_of_neg hc, List.dropWhile_cons_of_neg hc⟩
  have hds : cs.takeWhile Char.isDigit = ds := by
    rw [h.text, List.takeWhile_append_of_pos h.digits, htake.1, List.append_nil]
  have hdrop : cs.dropWhile Char.isDigit = rest := by
    rw [h.text, List.dropWhile_append_of_pos h.digits, htake.2]
  rw [Json.someDigits, hds, hdrop, if_neg h.nonempty]

/-- Digits start with a digit, which is none of the other characters of a numeral. -/
theorem DigitsSpell.head {ds cs rest : List Char} (h : DigitsSpell ds cs rest) :
    ∃ d cs', cs = d :: cs' ∧ d.isDigit ∧ ds.head? = some d := by
  cases ds with
  | nil => exact absurd rfl h.nonempty
  | cons d ds => exact ⟨d, ds ++ rest, h.text, h.digits d List.mem_cons_self, rfl⟩

theorem MinusSpells.minusSign {negative : Bool} {cs ds cs' rest : List Char}
    (h : MinusSpells negative cs cs') (hds : DigitsSpell ds cs' rest) :
    minusSign cs = (negative, cs') := by
  cases h with
  | minus => rfl
  | none =>
    obtain ⟨d, cs', rfl, hd, -⟩ := hds.head
    unfold Json.minusSign
    split
    · next heq =>
      obtain ⟨rfl, -⟩ := List.cons.inj heq
      cases hd
    · rfl

theorem DigitsSpell.wholePart {ds cs rest : List Char} (h : DigitsSpell ds cs rest)
    (hzero : ds.head? = some '0' → ds = ['0']) (hrest : Stops rest) :
    wholePart cs = .ok (ds, rest) := by
  unfold Json.wholePart
  split
  · next d cs' =>
    obtain ⟨_, _, heq, -, hhead⟩ := h.head
    obtain ⟨rfl, -⟩ := List.cons.inj heq
    obtain rfl := hzero hhead
    obtain ⟨-, rfl⟩ := List.cons.inj h.text
    rw [if_neg (Bool.eq_false_iff.1 (hrest d rfl)), h.someDigits hrest]
  · exact h.someDigits hrest

theorem FractionSpells.stops {f : Option (List Char)} {cs rest : List Char}
    (h : FractionSpells f cs rest) (hrest : Stops rest) : Stops cs := by
  cases h with
  | none => exact hrest
  | some _ => exact Stops.cons rfl _

theorem FractionSpells.fractionPart {f : Option (List Char)} {cs rest : List Char}
    (h : FractionSpells f cs rest) (hrest : Stops rest) (hpoint : ∀ c ∈ rest.head?, c ≠ '.') :
    fractionPart cs = .ok (f, rest) := by
  cases h with
  | none =>
    unfold Json.fractionPart
    split
    · exact absurd rfl (hpoint '.' rfl)
    · rfl
  | some h =>
    rw [Json.fractionPart, h.someDigits hrest]
    rfl

theorem not_isDigit_power {e : Char} (h : e = 'e' ∨ e = 'E') : e.isDigit = false ∧ e ≠ '.' := by
  obtain rfl | rfl := h <;> decide

/-- Where the power of a numeral starts, its digits and its fraction end. -/
theorem PowerSpells.stops {p : Option (Bool × List Char)} {cs rest : List Char}
    (h : PowerSpells p cs rest) (hrest : Ends rest) :
    Stops cs ∧ ∀ c ∈ cs.head?, c ≠ '.' := by
  cases h with
  | none => exact ⟨hrest.stops, fun c hc => (hrest c hc).2.1⟩
  | plus he _ =>
    refine ⟨Stops.cons (not_isDigit_power he).1 _, fun c hc => ?_⟩
    obtain rfl := Option.some.inj hc
    exact (not_isDigit_power he).2
  | some he _ _ =>
    refine ⟨Stops.cons (not_isDigit_power he).1 _, fun c hc => ?_⟩
    obtain rfl := Option.some.inj hc
    exact (not_isDigit_power he).2

theorem powerPart_of_sign {e : Char} (he : e = 'e' ∨ e = 'E') {negative : Bool}
    {ds cs cs' rest : List Char} (hsign : powerSign cs = (negative, cs'))
    (hds : DigitsSpell ds cs' rest) (hrest : Stops rest) :
    powerPart (e :: cs) = .ok (some (negative, ds), rest) := by
  obtain rfl | rfl := he <;>
  · rw [powerPart, hsign, hds.someDigits hrest]
    rfl

theorem PowerSpells.powerPart {p : Option (Bool × List Char)} {cs rest : List Char}
    (h : PowerSpells p cs rest) (hrest : Ends rest) : powerPart cs = .ok (p, rest) := by
  cases h with
  | none =>
    unfold Json.powerPart
    split
    · exact absurd rfl (hrest 'e' rfl).2.2.1
    · exact absurd rfl (hrest 'E' rfl).2.2.2
    · rfl
  | plus he hds => exact powerPart_of_sign he rfl hds hrest.stops
  | @some e negative ds cs cs' _ he hminus hds =>
    refine powerPart_of_sign he ?_ hds hrest.stops
    unfold powerSign
    split
    · -- A sign of this text is a minus, and without a sign it starts with a digit.
      cases hminus
      obtain ⟨_, _, heq, hd, -⟩ := hds.head
      obtain ⟨rfl, -⟩ := List.cons.inj heq
      cases hd
    · exact hminus.minusSign hds

theorem Numeral.Spells.numeral {n : Numeral} {cs rest : List Char} (h : n.Spells cs rest)
    (hrest : Ends rest) : numeral cs = .ok (n, rest) := by
  obtain ⟨hminus, hwhole, hzero, hfraction, hpower⟩ := h
  obtain ⟨hstops, hpoint⟩ := hpower.stops hrest
  have hfraction' := hfraction.fractionPart hstops hpoint
  rw [Json.numeral, hminus.minusSign hwhole, hwhole.wholePart hzero (hfraction.stops hstops)]
  simp only [bind, Except.bind, pure, Except.pure, hfraction', hpower.powerPart hrest]

/-- A numeral starts with a character that starts no other token. -/
theorem Numeral.Spells.head {n : Numeral} {cs rest : List Char} (h : n.Spells cs rest) :
    ∃ c cs', cs = c :: cs' ∧ (c = '-' ∨ c.isDigit) := by
  obtain ⟨hminus, hwhole, -, -, -⟩ := h
  obtain ⟨d, ds, rfl, hd, -⟩ := hwhole.head
  generalize n.negative = negative at hminus
  cases hminus with
  | none => exact ⟨d, ds, rfl, .inr hd⟩
  | minus => exact ⟨'-', _, rfl, .inl rfl⟩

theorem token_of_number {c : Char} (h : c = '-' ∨ c.isDigit) (cs : List Char) :
    token c cs = numberToken (c :: cs) := by
  unfold token
  split
  case h_11 => exact if_pos h
  all_goals exact absurd h (by decide)

theorem not_isSpace_of_number {c : Char} (h : c = '-' ∨ c.isDigit) : isSpace c = false := by
  obtain rfl | h := h
  · rfl
  · refine Bool.eq_false_iff.2 fun hspace => ?_
    simp only [isSpace, Bool.or_eq_true, beq_iff_eq] at hspace
    obtain ((rfl | rfl) | rfl) | rfl := hspace <;> cases h

theorem Numeral.Spells.tokens {n : Numeral} {x : Number} {cs rest : List Char}
    (h : n.Spells cs rest) (hx : n.number? = some x) (hrest : Ends rest) :
    tokens cs = .number ⟨.ok x, .ok ()⟩ :: tokens rest := by
  obtain ⟨c, cs', rfl, hc⟩ := h.head
  have hspace := Bool.eq_false_iff.1 (not_isSpace_of_number hc)
  have htoken : token c cs' = (.number ⟨.ok x, .ok ()⟩, rest) := by
    rw [token_of_number hc, numberToken, h.numeral hrest]
    simp only [hx]
  rw [Json.tokens, if_neg hspace, htoken]

/-! ## Values -/

theorem Blank.ends {cs rest : List Char} (h : Blank cs rest) (hrest : Ends rest) : Ends cs := by
  cases h with
  | none => exact hrest
  | more hc _ =>
    simp only [isSpace, Bool.or_eq_true, beq_iff_eq] at hc
    obtain ((rfl | rfl) | rfl) | rfl := hc <;> exact Ends.cons (by decide) _

theorem MoreItems.ends {vs : List Value} {cs rest : List Char} (h : MoreItems vs cs rest) :
    Ends cs := by
  cases h <;> exact Ends.cons (by decide) _

theorem MoreMembers.ends {ms : List (List Char × Value)} {cs rest : List Char}
    (h : MoreMembers ms cs rest) : Ends cs := by
  cases h <;> exact Ends.cons (by decide) _

mutual

/-- The tokens of a value are the same, however it is written. -/
theorem Value.Spells.tokens {v : Value} {cs rest : List Char} (h : v.Spells cs rest)
    (hrest : Ends rest) : tokens cs = v.doc.spell ++ tokens rest := by
  cases h with
  | null => exact tokens_word 'n' ['u', 'l', 'l'] rfl (fun _ => rfl) rest
  | yes => exact tokens_word 't' ['r', 'u', 'e'] rfl (fun _ => rfl) rest
  | no => exact tokens_word 'f' ['a', 'l', 's', 'e'] rfl (fun _ => rfl) rest
  | number h hx => exact h.tokens hx hrest
  | text h => exact h.tokens
  | array h => rw [tokens_openArray, h.tokens]; rfl
  | object h => rw [tokens_openObject, h.tokens]; rfl
termination_by (sizeOf v, 0)

theorem ItemsSpell.tokens {vs : List Value} {cs rest : List Char} (h : ItemsSpell vs cs rest) :
    .openArray :: tokens cs = (Doc.array (docItems vs)).spell ++ tokens rest := by
  cases h with
  | none h => rw [h.tokens, tokens_closeArray]; rfl
  | some hblank hv hblank' hmore =>
    rw [hblank.tokens, hv.tokens (hblank'.ends hmore.ends), hblank'.tokens, hmore.tokens,
      ← List.append_assoc]
    rfl
termination_by (sizeOf vs, 0)

theorem MoreItems.tokens {vs : List Value} {cs rest : List Char} (h : MoreItems vs cs rest) :
    tokens cs = (docItems vs).spell ++ tokens rest := by
  cases h with
  | closed => rw [tokens_closeArray]; rfl
  | comma h =>
    rw [tokens_comma]
    exact congrArg (Token.comma :: ·) (List.cons.inj h.tokens).2
termination_by (sizeOf vs, 1)

theorem MembersSpell.tokens {ms : List (List Char × Value)} {cs rest : List Char}
    (h : MembersSpell ms cs rest) :
    .openObject :: tokens cs = (Doc.object (docMembers ms)).spell ++ tokens rest := by
  cases h with
  | none h => rw [h.tokens, tokens_closeObject]; rfl
  | some hblank hname hcolon hblank' hv hblank'' hmore =>
    rw [hblank.tokens, hname.tokens, hcolon.tokens, tokens_colon, hblank'.tokens,
      hv.tokens (hblank''.ends hmore.ends), hblank''.tokens, hmore.tokens, ← List.append_assoc]
    rfl
termination_by (sizeOf ms, 0)

theorem MoreMembers.tokens {ms : List (List Char × Value)} {cs rest : List Char}
    (h : MoreMembers ms cs rest) : tokens cs = (docMembers ms).spell ++ tokens rest := by
  cases h with
  | closed => rw [tokens_closeObject]; rfl
  | comma h =>
    rw [tokens_comma]
    exact congrArg (Token.comma :: ·) (List.cons.inj h.tokens).2
termination_by (sizeOf ms, 1)

end

/-- The document of a text is that of the value that it spells. -/
theorem Value.IsWritten.read {v : Value} {text : List Char} (h : v.IsWritten text) :
    Doc.read text = (v.doc, []) := by
  obtain ⟨hblank, hv, hblank'⟩ := h
  rw [Doc.read, hblank.tokens, hv.tokens (hblank'.ends Ends.nil), Doc.run_spell v.isWhole_doc,
    hblank'.tokens, Json.tokens, Hole.fill, Position.run]

/-! ## The value of a text -/

mutual

theorem Value.doc_inj {v w : Value} (h : v.doc = w.doc) : v = w := by
  match v with
  | .null | .flag true | .flag false =>
    obtain _ | (_ | _) | _ | _ | _ | _ := w <;> first | rfl | cases h
  | .number n | .text t =>
    obtain _ | (_ | _) | _ | _ | _ | _ := w <;> cases h
    rfl
  | .array items =>
    obtain _ | (_ | _) | _ | _ | items' | _ := w
    case array => exact congrArg Value.array (docItems_inj (Doc.array.inj h))
    all_goals cases h
  | .object members =>
    obtain _ | (_ | _) | _ | _ | _ | members' := w
    case object => exact congrArg Value.object (docMembers_inj (Doc.object.inj h))
    all_goals cases h

theorem docItems_inj {vs ws : List Value} (h : docItems vs = docItems ws) : vs = ws := by
  match vs, ws with
  | [], [] => rfl
  | v :: vs, w :: ws =>
    obtain ⟨hv, hvs⟩ := Items.cons.inj h
    rw [Value.doc_inj hv, docItems_inj hvs]

theorem docMembers_inj {ms ns : List (List Char × Value)} (h : docMembers ms = docMembers ns) :
    ms = ns := by
  match ms, ns with
  | [], [] => rfl
  | (m, v) :: ms, (n, w) :: ns =>
    obtain ⟨hm, hv, hms⟩ := Members.cons.inj h
    obtain rfl := Except.ok.inj (Reading.mk.inj hm).1
    rw [Value.doc_inj hv, docMembers_inj hms]

end

/-- A text spells at most one value. -/
theorem Value.IsWritten.unique {v w : Value} {text : List Char} (hv : v.IsWritten text)
    (hw : w.IsWritten text) : v = w := by
  have hread : (v.doc, []) = (w.doc, []) := hv.read.symm.trans hw.read
  exact Value.doc_inj (Prod.mk.inj hread).1

/-! ## Nesting -/

mutual

/-- How deep arrays and objects are nested in a value. -/
def Value.depth : Value → Nat
  | .null | .flag _ | .number _ | .text _ => 0
  | .array items => itemsDepth items + 1
  | .object members => membersDepth members + 1

def itemsDepth : List Value → Nat
  | [] => 0
  | v :: vs => max v.depth (itemsDepth vs)

def membersDepth : List (List Char × Value) → Nat
  | [] => 0
  | (_, v) :: ms => max v.depth (membersDepth ms)

end

mutual

/-- A value is kept if it is not nested too deep. -/
theorem Value.keep_doc {v : Value} {depth : Nat} (h : v.depth ≤ depth) :
    v.doc.keep depth = .ok () := by
  match v, depth with
  | .null, _ | .flag true, _ | .flag false, _ | .number _, _ | .text _, _ => rfl
  | .array items, 0 | .object items, 0 => exact absurd h (Nat.not_succ_le_zero _)
  | .array items, depth + 1 => exact keep_docItems (Nat.le_of_succ_le_succ h)
  | .object members, depth + 1 => exact keep_docMembers (Nat.le_of_succ_le_succ h)

theorem keep_docItems {vs : List Value} {depth : Nat} (h : itemsDepth vs ≤ depth) :
    (docItems vs).keep depth = .ok () := by
  match vs with
  | [] => rfl
  | v :: vs =>
    obtain ⟨hv, hvs⟩ := Nat.max_le.1 h
    exact bind_eq_ok.2 ⟨(), Value.keep_doc hv, keep_docItems hvs⟩

theorem keep_docMembers {ms : List (List Char × Value)} {depth : Nat}
    (h : membersDepth ms ≤ depth) : (docMembers ms).keep depth = .ok () := by
  match ms with
  | [] => rfl
  | (n, v) :: ms =>
    obtain ⟨hv, hms⟩ := Nat.max_le.1 h
    exact bind_eq_ok.2 ⟨n, rfl, bind_eq_ok.2 ⟨(), Value.keep_doc hv, keep_docMembers hms⟩⟩

end

mutual

/-- Any value is skipped. -/
theorem Value.skip_doc : (v : Value) → v.doc.skip = .ok ()
  | .null | .flag true | .flag false | .number _ | .text _ => rfl
  | .array items => skip_docItems items
  | .object members => skip_docMembers members

theorem skip_docItems : (vs : List Value) → (docItems vs).skip = .ok ()
  | [] => rfl
  | v :: vs => bind_eq_ok.2 ⟨(), v.skip_doc, skip_docItems vs⟩

theorem skip_docMembers : (ms : List (List Char × Value)) → (docMembers ms).skip = .ok ()
  | [] => rfl
  | (_, v) :: ms => bind_eq_ok.2 ⟨(), rfl, bind_eq_ok.2 ⟨(), v.skip_doc, skip_docMembers ms⟩⟩

end

end PublishDesk.Json
