import PublishDesk.Proofs.Text.Lines
import PublishDesk.Text.Utf8

/-!
# UTF-8 is read back

`decodeLossy` gives back what `encode` has written (`decodeLossy_encode`): it takes the bytes of one
character after the other (`step_encodeChar`). What `decode?` does not refuse has been written by
`encode` (`decode?_eq_some_iff`), as each character that is read stands for the bytes that are
written for it (`eq_encodeChar_of_step`). The byte of a line feed stands for a line feed only,
and likewise that of any character with a single byte; so the lines of a text and those of its bytes
correspond (`encode_terminated`), and the parts of a path and those of its bytes. It ends whatever
stands before it, so lines may also be read one by one that are not UTF-8
(`decodeLossy_terminated`).
-/

namespace PublishDesk.Text.Utf8

/-- A continuation byte that carries the last six bits of a number. -/
def more (k : Nat) : UInt8 := UInt8.ofNat (0x80 + k % 0x40)

theorem toNat_ofNat_of_lt {n : Nat} (h : n < 256) : (UInt8.ofNat n).toNat = n := by
  rw [UInt8.toNat_ofNat']
  exact Nat.mod_eq_of_lt h

theorem toNat_more (k : Nat) : (more k).toNat = 0x80 + k % 0x40 :=
  toNat_ofNat_of_lt (by omega)

theorem follow_more {low high : UInt8} {k : Nat} (hlow : low.toNat ≤ 0x80 + k % 0x40)
    (hhigh : 0x80 + k % 0x40 ≤ high.toNat) (bits left : Nat) (bs : List UInt8) :
    follow bits low high (left + 1) (more k :: bs) =
      follow (bits * 64 + k % 0x40) 0x80 0xbf left bs := by
  have hrange : low ≤ more k ∧ more k ≤ high := by
    rw [UInt8.le_iff_toNat_le, UInt8.le_iff_toNat_le, toNat_more]
    exact ⟨hlow, hhigh⟩
  rw [follow, if_pos hrange, toNat_more, Nat.add_sub_cancel_left]

theorem follow_more' (bits left k : Nat) (bs : List UInt8) :
    follow bits 0x80 0xbf (left + 1) (more k :: bs) =
      follow (bits * 64 + k % 0x40) 0x80 0xbf left bs :=
  follow_more (Nat.le_add_right ..) (show _ ≤ 191 by omega) bits left bs

/-- A character is not a surrogate. -/
theorem toNat_valid (c : Char) : c.toNat < 0xd800 ∨ 0xdfff < c.toNat ∧ c.toNat < 0x110000 := by
  exact c.valid

theorem encodeChar_eq (c : Char) :
    encodeChar c =
      if c.toNat < 0x80 then [UInt8.ofNat c.toNat]
      else if c.toNat < 0x800 then [UInt8.ofNat (0xc0 + c.toNat / 0x40), more c.toNat]
      else if c.toNat < 0x10000 then
        [UInt8.ofNat (0xe0 + c.toNat / 0x1000), more (c.toNat / 0x40), more c.toNat]
      else
        [UInt8.ofNat (0xf0 + c.toNat / 0x40000), more (c.toNat / 0x1000), more (c.toNat / 0x40),
          more c.toNat] := by
  simp only [encodeChar, more, Nat.div_one]

theorem step_of_lead {b : UInt8} {l : Lead} {c : Char} {bs rest : List UInt8}
    (hlead : lead? b = some l)
    (hfollow : follow l.bits l.low l.high l.more bs = (some c.toNat, rest)) :
    step b bs = (some c, rest) := by
  simp only [step, hlead, hfollow, Option.map_some, Char.ofNat_toNat]

theorem lead?_one {k : Nat} (h : k < 0x80) : lead? (.ofNat k) = some ⟨k, 0, 0x80, 0xbf⟩ := by
  rw [lead?, toNat_ofNat_of_lt (by omega), if_pos h]

theorem lead?_two {k : Nat} (hlow : 2 ≤ k) (hhigh : k < 0x20) :
    lead? (.ofNat (0xc0 + k)) = some ⟨k, 1, 0x80, 0xbf⟩ := by
  rw [lead?, toNat_ofNat_of_lt (by omega), if_neg (by omega), if_neg (by omega), if_pos (by omega),
    Nat.add_sub_cancel_left]

theorem lead?_three {k : Nat} (h : k < 0x10) :
    lead? (.ofNat (0xe0 + k)) =
      some ⟨k, 2, if k = 0 then 0xa0 else 0x80, if k = 0xd then 0x9f else 0xbf⟩ := by
  have hzero : 0xe0 + k = 0xe0 ↔ k = 0 := by omega
  have hlast : 0xe0 + k = 0xed ↔ k = 0xd := by omega
  rw [lead?, toNat_ofNat_of_lt (by omega), if_neg (by omega), if_neg (by omega), if_neg (by omega),
    if_pos (by omega), Nat.add_sub_cancel_left]
  simp only [hzero, hlast]

theorem lead?_four {k : Nat} (h : k < 5) :
    lead? (.ofNat (0xf0 + k)) =
      some ⟨k, 3, if k = 0 then 0x90 else 0x80, if k = 4 then 0x8f else 0xbf⟩ := by
  have hzero : 0xf0 + k = 0xf0 ↔ k = 0 := by omega
  have hlast : 0xf0 + k = 0xf4 ↔ k = 4 := by omega
  rw [lead?, toNat_ofNat_of_lt (by omega), if_neg (by omega), if_neg (by omega), if_neg (by omega),
    if_neg (by omega), if_pos (by omega), Nat.add_sub_cancel_left]
  simp only [hzero, hlast]

theorem step_encodeChar (c : Char) :
    ∃ b bs, encodeChar c = b :: bs ∧ ∀ rest, step b (bs ++ rest) = (some c, rest) := by
  have hc := toNat_valid c
  rw [encodeChar_eq]
  split
  · next h => exact ⟨_, _, rfl, fun rest => step_of_lead (lead?_one h) rfl⟩
  split
  · refine ⟨_, _, rfl, fun rest => step_of_lead (lead?_two (by omega) (by omega)) ?_⟩
    simp only [List.cons_append, List.nil_append, follow_more', follow]
    congr 2
    omega
  split
  -- The bounds on the second byte rule out short forms, and surrogates or numbers that are too big;
  -- the number of a character is neither.
  · refine ⟨_, _, rfl, fun rest => step_of_lead (lead?_three (by omega)) ?_⟩
    simp only [List.cons_append, List.nil_append]
    rw [follow_more, follow_more', follow]
    · congr 2
      omega
    · split
      · exact show (0xa0 : Nat) ≤ _ by omega
      · exact show (0x80 : Nat) ≤ _ by omega
    · split
      · exact show _ ≤ (0x9f : Nat) by omega
      · exact show _ ≤ (0xbf : Nat) by omega
  · refine ⟨_, _, rfl, fun rest => step_of_lead (lead?_four (by omega)) ?_⟩
    simp only [List.cons_append, List.nil_append]
    rw [follow_more, follow_more', follow_more', follow]
    · congr 2
      omega
    · split
      · exact show (0x90 : Nat) ≤ _ by omega
      · exact show (0x80 : Nat) ≤ _ by omega
    · split
      · exact show _ ≤ (0x8f : Nat) by omega
      · exact show _ ≤ (0xbf : Nat) by omega

theorem units_encode (cs : List Char) : units (encode cs) = cs.map some := by
  induction cs with
  | nil => rw [encode, List.flatMap_nil, units, List.map_nil]
  | cons c cs ih =>
    obtain ⟨b, bs, hc, hstep⟩ := step_encodeChar c
    rw [encode, List.flatMap_cons, hc, List.cons_append, units, hstep, ← encode, ih, List.map_cons]

theorem decodeLossy_encode (cs : List Char) : decodeLossy (encode cs) = cs := by
  rw [decodeLossy, units_encode, List.map_map]
  exact List.map_id cs

theorem decode?_encode (cs : List Char) : decode? (encode cs) = some cs := by
  rw [decode?, units_encode]
  induction cs with
  | nil => rfl
  | cons c cs ih =>
    rw [List.map_cons, List.mapM_cons, ih]
    rfl

theorem encode_append (cs ds : List Char) : encode (cs ++ ds) = encode cs ++ encode ds :=
  List.flatMap_append

/-! ## Bytes that are read have been written -/

theorem more_eq_more {j k : Nat} (h : j % 0x40 = k % 0x40) : more j = more k := by
  rw [more, more, h]

theorem of_follow_zero {bits n : Nat} {low high : UInt8} {bs rest : List UInt8}
    (h : follow bits low high 0 bs = (some n, rest)) : n = bits ∧ rest = bs := by
  obtain ⟨hn, hrest⟩ := Prod.mk.inj h
  exact ⟨(Option.some.inj hn).symm, hrest.symm⟩

/-- A continuation byte that is read is there, and in its range. -/
theorem exists_of_follow_succ {bits left n : Nat} {low high : UInt8} {bs rest : List UInt8}
    (hlow : 0x80 ≤ low.toNat) (hhigh : high.toNat ≤ 0xbf)
    (h : follow bits low high (left + 1) bs = (some n, rest)) :
    ∃ k bs', k < 0x40 ∧ low.toNat ≤ 0x80 + k ∧ 0x80 + k ≤ high.toNat ∧ bs = more k :: bs' ∧
      follow (bits * 64 + k) 0x80 0xbf left bs' = (some n, rest) := by
  cases bs with
  | nil => cases h
  | cons b bs =>
    rw [follow] at h
    split at h
    · next hb =>
      have hb₁ := UInt8.le_iff_toNat_le.1 hb.1
      have hb₂ := UInt8.le_iff_toNat_le.1 hb.2
      refine ⟨b.toNat - 0x80, bs, by omega, by omega, by omega, ?_, h⟩
      rw [more, Nat.mod_eq_of_lt (by omega), Nat.add_sub_cancel' (by omega), UInt8.ofNat_toNat]
    · cases h

theorem exists_of_follow_succ' {bits left n : Nat} {bs rest : List UInt8}
    (h : follow bits 0x80 0xbf (left + 1) bs = (some n, rest)) :
    ∃ k bs', k < 0x40 ∧ bs = more k :: bs' ∧
      follow (bits * 64 + k) 0x80 0xbf left bs' = (some n, rest) := by
  obtain ⟨k, bs', hk, -, -, hbs, h⟩ := exists_of_follow_succ (by decide) (by decide) h
  exact ⟨k, bs', hk, hbs, h⟩

theorem toNat_charOfNat {n : Nat} (h : n < 0xd800 ∨ 0xdfff < n ∧ n < 0x110000) :
    (Char.ofNat n).toNat = n := by
  rw [Char.ofNat, dif_pos (show n.isValidChar from h)]
  rfl

/-- The bytes of a character whose number is made of the payload of its bytes. -/
theorem encodeChar_two {i j : Nat} (hi : 2 ≤ i) (hi' : i < 0x20) (hj : j < 0x40) :
    encodeChar (.ofNat (i * 64 + j)) = [.ofNat (0xc0 + i), more j] := by
  have hlead : (i * 64 + j) / 0x40 = i := by omega
  have hlast : more (i * 64 + j) = more j := more_eq_more (by omega)
  rw [encodeChar_eq, toNat_charOfNat (by omega), if_neg (by omega), if_pos (by omega), hlead, hlast]

theorem encodeChar_three {i j k : Nat} (hi : i < 0x10) (hj : j < 0x40) (hk : k < 0x40)
    (hlow : 0x800 ≤ (i * 64 + j) * 64 + k)
    (hvalid : (i * 64 + j) * 64 + k < 0xd800 ∨ 0xdfff < (i * 64 + j) * 64 + k) :
    encodeChar (.ofNat ((i * 64 + j) * 64 + k)) = [.ofNat (0xe0 + i), more j, more k] := by
  have hlead : ((i * 64 + j) * 64 + k) / 0x1000 = i := by omega
  have hnext : more (((i * 64 + j) * 64 + k) / 0x40) = more j := more_eq_more (by omega)
  have hlast : more ((i * 64 + j) * 64 + k) = more k := more_eq_more (by omega)
  rw [encodeChar_eq, toNat_charOfNat (by omega), if_neg (by omega), if_neg (by omega),
    if_pos (by omega), hlead, hnext, hlast]

theorem encodeChar_four {i j k m : Nat} (hj : j < 0x40) (hk : k < 0x40) (hm : m < 0x40)
    (hlow : 0x10000 ≤ ((i * 64 + j) * 64 + k) * 64 + m)
    (hvalid : ((i * 64 + j) * 64 + k) * 64 + m < 0x110000) :
    encodeChar (.ofNat (((i * 64 + j) * 64 + k) * 64 + m)) =
      [.ofNat (0xf0 + i), more j, more k, more m] := by
  have hlead : (((i * 64 + j) * 64 + k) * 64 + m) / 0x40000 = i := by omega
  have hnext : more ((((i * 64 + j) * 64 + k) * 64 + m) / 0x1000) = more j :=
    more_eq_more (by omega)
  have hnext' : more ((((i * 64 + j) * 64 + k) * 64 + m) / 0x40) = more k :=
    more_eq_more (by omega)
  have hlast : more (((i * 64 + j) * 64 + k) * 64 + m) = more m := more_eq_more (by omega)
  rw [encodeChar_eq, toNat_charOfNat (by omega), if_neg (by omega), if_neg (by omega),
    if_neg (by omega), hlead, hnext, hnext', hlast]

/-- What a first byte says of the sequence that it starts. -/
theorem lead?_cases {b : UInt8} {l : Lead} (h : lead? b = some l) :
    (∃ k < 0x80, b = .ofNat k ∧ l = ⟨k, 0, 0x80, 0xbf⟩) ∨
    (∃ k < 0x20, 2 ≤ k ∧ b = .ofNat (0xc0 + k) ∧ l = ⟨k, 1, 0x80, 0xbf⟩) ∨
    (∃ k < 0x10, b = .ofNat (0xe0 + k) ∧
      l = ⟨k, 2, if k = 0 then 0xa0 else 0x80, if k = 0xd then 0x9f else 0xbf⟩) ∨
    (∃ k < 5, b = .ofNat (0xf0 + k) ∧
      l = ⟨k, 3, if k = 0 then 0x90 else 0x80, if k = 4 then 0x8f else 0xbf⟩) := by
  have hof (base : Nat) (hle : base ≤ b.toNat) :
      ∃ k, b.toNat = base + k ∧ b = .ofNat (base + k) := by
    obtain ⟨k, hk⟩ := Nat.exists_eq_add_of_le hle
    exact ⟨k, hk, by rw [← hk, UInt8.ofNat_toNat]⟩
  have hlead := h
  rw [lead?] at h
  split at h
  · exact .inl ⟨b.toNat, ‹_›, UInt8.ofNat_toNat.symm, (Option.some.inj h).symm⟩
  split at h
  · contradiction
  split at h
  · obtain ⟨k, hk, rfl⟩ := hof 0xc0 (by omega)
    have hlow : 2 ≤ k := by omega
    have hhigh : k < 0x20 := by omega
    rw [lead?_two hlow hhigh] at hlead
    exact .inr (.inl ⟨k, hhigh, hlow, rfl, (Option.some.inj hlead).symm⟩)
  split at h
  · obtain ⟨k, hk, rfl⟩ := hof 0xe0 (by omega)
    have hhigh : k < 0x10 := by omega
    rw [lead?_three hhigh] at hlead
    exact .inr (.inr (.inl ⟨k, hhigh, rfl, (Option.some.inj hlead).symm⟩))
  split at h
  · obtain ⟨k, hk, rfl⟩ := hof 0xf0 (by omega)
    have hhigh : k < 5 := by omega
    rw [lead?_four hhigh] at hlead
    exact .inr (.inr (.inr ⟨k, hhigh, rfl, (Option.some.inj hlead).symm⟩))
  · contradiction

theorem exists_of_step {b : UInt8} {bs rest : List UInt8} {c : Char}
    (h : step b bs = (some c, rest)) :
    ∃ l n, lead? b = some l ∧ follow l.bits l.low l.high l.more bs = (some n, rest) ∧
      c = Char.ofNat n := by
  rw [step] at h
  split at h
  · cases h
  · next l hl =>
    obtain ⟨hc, rfl⟩ := Prod.mk.inj h
    obtain ⟨n, hn, rfl⟩ := Option.map_eq_some_iff.1 hc
    exact ⟨l, n, hl, Prod.ext hn rfl, rfl⟩

/-- A character that is read has been written. -/
theorem eq_encodeChar_of_step {b : UInt8} {bs rest : List UInt8} {c : Char}
    (h : step b bs = (some c, rest)) : b :: bs = encodeChar c ++ rest := by
  obtain ⟨l, n, hl, hn, rfl⟩ := exists_of_step h
  obtain ⟨i, hi, rfl, rfl⟩ | ⟨i, hi, hi', rfl, rfl⟩ | ⟨i, hi, rfl, rfl⟩ | ⟨i, hi, rfl, rfl⟩ :=
    lead?_cases hl
  · obtain ⟨rfl, rfl⟩ := of_follow_zero hn
    rw [encodeChar_eq, toNat_charOfNat (.inl (by omega)), if_pos hi]
    rfl
  · dsimp only at hn
    obtain ⟨j, bs, hj, rfl, hj'⟩ := exists_of_follow_succ' hn
    obtain ⟨rfl, rfl⟩ := of_follow_zero hj'
    rw [encodeChar_two hi' hi hj]
    rfl
  · dsimp only at hn
    obtain ⟨j, bs, hj, hj₁, hj₂, rfl, hj'⟩ := exists_of_follow_succ (by split <;> decide)
      (by split <;> decide) hn
    obtain ⟨k, bs, hk, rfl, hk'⟩ := exists_of_follow_succ' hj'
    obtain ⟨rfl, rfl⟩ := of_follow_zero hk'
    have hlow : 0x800 ≤ (i * 64 + j) * 64 + k := by
      split at hj₁
      · replace hj₁ : 0xa0 ≤ 0x80 + j := hj₁
        omega
      · omega
    have hvalid : (i * 64 + j) * 64 + k < 0xd800 ∨ 0xdfff < (i * 64 + j) * 64 + k := by
      split at hj₂
      · replace hj₂ : 0x80 + j ≤ 0x9f := hj₂
        omega
      · omega
    rw [encodeChar_three hi hj hk hlow hvalid]
    rfl
  · dsimp only at hn
    obtain ⟨j, bs, hj, hj₁, hj₂, rfl, hj'⟩ := exists_of_follow_succ (by split <;> decide)
      (by split <;> decide) hn
    obtain ⟨k, bs, hk, rfl, hk'⟩ := exists_of_follow_succ' hj'
    obtain ⟨m, bs, hm, rfl, hm'⟩ := exists_of_follow_succ' hk'
    obtain ⟨rfl, rfl⟩ := of_follow_zero hm'
    have hlow : 0x10000 ≤ ((i * 64 + j) * 64 + k) * 64 + m := by
      split at hj₁
      · replace hj₁ : 0x90 ≤ 0x80 + j := hj₁
        omega
      · omega
    have hvalid : ((i * 64 + j) * 64 + k) * 64 + m < 0x110000 := by
      split at hj₂
      · replace hj₂ : 0x80 + j ≤ 0x8f := hj₂
        omega
      · omega
    rw [encodeChar_four hj hk hm hlow hvalid]
    rfl

theorem eq_encode_of_decode? {bs : List UInt8} {cs : List Char} (h : decode? bs = some cs) :
    bs = encode cs := by
  rw [decode?] at h
  fun_induction units bs generalizing cs with
  | case1 =>
    cases h
    rfl
  | case2 b bs ih =>
    rw [List.mapM_cons] at h
    obtain ⟨c, hc, h'⟩ := Option.bind_eq_some_iff.1 h
    obtain ⟨cs', hcs, h''⟩ := Option.bind_eq_some_iff.1 h'
    obtain rfl := Option.some.inj h''
    rw [eq_encodeChar_of_step (Prod.ext hc rfl)]
    exact congrArg (encodeChar c ++ ·) (ih hcs)

theorem decode?_eq_some_iff {bs : List UInt8} {cs : List Char} :
    decode? bs = some cs ↔ bs = encode cs :=
  ⟨eq_encode_of_decode?, fun h => h ▸ decode?_encode cs⟩

/-- The bytes are those of a text. -/
def IsUtf8 (bs : List UInt8) : Prop := ∃ cs, bs = encode cs

theorem decode?_eq_none_iff {bs : List UInt8} : decode? bs = none ↔ ¬ IsUtf8 bs := by
  simp only [Option.eq_none_iff_forall_ne_some, ne_eq, decode?_eq_some_iff, IsUtf8, not_exists]

/-! ## Separators -/

theorem ne_ofNat {m n : Nat} (hm : m < 256) (hn : n < 256) (h : m ≠ n) :
    UInt8.ofNat m ≠ UInt8.ofNat n := by
  intro heq
  have heq := congrArg UInt8.toNat heq
  rw [toNat_ofNat_of_lt hm, toNat_ofNat_of_lt hn] at heq
  exact h heq

theorem encodeChar_eq_singleton {d : Char} {b : UInt8} (hd : encodeChar d = [b]) :
    d.toNat < 0x80 ∧ b = UInt8.ofNat d.toNat := by
  rw [encodeChar_eq] at hd
  split at hd
  · next h => exact ⟨h, (List.cons.inj hd).1.symm⟩
  · split at hd
    · cases hd
    · split at hd <;> cases hd

variable {d : Char} {b : UInt8}

/-- The byte of a character that has only one stands for that character only. -/
theorem not_mem_encodeChar (hd : encodeChar d = [b]) {c : Char} (h : c ≠ d) : b ∉ encodeChar c := by
  obtain ⟨hlow, rfl⟩ := encodeChar_eq_singleton hd
  have hc := toNat_valid c
  have hne : d.toNat ≠ c.toNat := fun hn => h (Char.toNat_inj.1 hn.symm)
  have hmore (k : Nat) : UInt8.ofNat d.toNat ≠ more k :=
    ne_ofNat (by omega) (by omega) (by omega)
  rw [encodeChar_eq]
  split
  · exact List.not_mem_cons_of_ne_of_not_mem (ne_ofNat (by omega) (by omega) hne)
      List.not_mem_nil
  · split
    · simp only [List.mem_cons, hmore, List.not_mem_nil, or_false]
      exact ne_ofNat (by omega) (by omega) (by omega)
    · split
      · simp only [List.mem_cons, hmore, List.not_mem_nil, or_false]
        exact ne_ofNat (by omega) (by omega) (by omega)
      · simp only [List.mem_cons, hmore, List.not_mem_nil, or_false]
        exact ne_ofNat (by omega) (by omega) (by omega)

theorem not_mem_encode (hd : encodeChar d = [b]) {cs : List Char} (h : d ∉ cs) :
    b ∉ encode cs := by
  intro hmem
  obtain ⟨c, hc, hbyte⟩ := List.mem_flatMap.1 hmem
  exact not_mem_encodeChar hd (fun heq => h (heq ▸ hc)) hbyte

theorem encode_terminated (hd : encodeChar d = [b]) (ls : List (List Char)) :
    encode (terminated d ls) = terminated b (ls.map encode) := by
  induction ls with
  | nil => rfl
  | cons l ls ih =>
    rw [List.map_cons, terminated_cons, terminated_cons, ← ih, encode_append]
    simp only [encode, List.flatMap_cons, hd, List.singleton_append]

/-! ## Parts that are not UTF-8 -/

theorem low_of_lead? {b : UInt8} {l : Lead} (h : lead? b = some l) : 0x80 ≤ l.low := by
  simp only [lead?] at h
  grind

/-- A byte that stands for a character by itself continues none. -/
theorem follow_append {a low : UInt8} (ha : a < 0x80) (hlow : 0x80 ≤ low) (bits more : Nat)
    (high : UInt8) (bs rest : List UInt8) :
    follow bits low high more (bs ++ a :: rest) =
      ((follow bits low high more bs).1, (follow bits low high more bs).2 ++ a :: rest) := by
  induction bs generalizing bits low high more with
  | nil =>
    cases more with
    | zero => rfl
    | succ more =>
      have hnot : ¬(low ≤ a ∧ a ≤ high) := fun h =>
        UInt8.not_lt.2 (UInt8.le_trans hlow h.1) ha
      exact if_neg hnot
  | cons c bs ih =>
    cases more with
    | zero => rfl
    | succ more =>
      rw [List.cons_append, follow, follow]
      split
      · exact ih (by decide) ..
      · rfl

theorem step_append {a : UInt8} (ha : a < 0x80) (b : UInt8) (bs rest : List UInt8) :
    step b (bs ++ a :: rest) = ((step b bs).1, (step b bs).2 ++ a :: rest) := by
  unfold step
  cases hl : lead? b with
  | none => rfl
  | some l => simp only [follow_append ha (low_of_lead? hl)]

theorem units_append {a : UInt8} (ha : a < 0x80) (bs rest : List UInt8) :
    units (bs ++ a :: rest) = units bs ++ units (a :: rest) := by
  fun_induction units bs with
  | case1 => rfl
  | case2 b bs ih =>
    rw [List.cons_append, units, step_append ha, ih]
    rfl

/-- Lines are read one by one, whether they are UTF-8 or not. -/
theorem decodeLossy_terminated (hd : encodeChar d = [b]) (ls : List (List UInt8)) :
    decodeLossy (terminated b ls) = terminated d (ls.map decodeLossy) := by
  obtain ⟨hlow, hb⟩ := encodeChar_eq_singleton hd
  have hlt : b < 0x80 := by
    rw [UInt8.lt_iff_toNat_lt, hb, toNat_ofNat_of_lt (by omega)]
    exact hlow
  have hstep (rest : List UInt8) : step b rest = (some d, rest) := by
    obtain ⟨b', bs, hc, hstep⟩ := step_encodeChar d
    obtain ⟨rfl, rfl⟩ := List.cons.inj (hd.symm.trans hc)
    exact hstep rest
  induction ls with
  | nil => rw [List.map_nil, terminated, List.flatMap_nil, decodeLossy, units, List.map_nil]; rfl
  | cons l ls ih =>
    have hunits : units (b :: terminated b ls) = some d :: units (terminated b ls) := by
      rw [units, hstep]
    rw [List.map_cons, terminated_cons, terminated_cons, ← ih, decodeLossy, units_append hlt,
      hunits, List.map_append]
    rfl

end PublishDesk.Text.Utf8
