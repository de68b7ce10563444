/-!
# UTF-8

`encode` writes characters as bytes. `units` cuts any byte sequence into characters and maximal
ill-formed parts: a part is the longest beginning of a well-formed sequence that cannot be
continued, or a single byte that starts none. `decodeLossy` puts U+FFFD for each such part, and
`decode?` refuses a sequence that has one.
-/

namespace PublishDesk.Text.Utf8

/-- The bytes of one character. -/
def encodeChar (c : Char) : List UInt8 :=
  let n := c.toNat
  let more (unit : Nat) : UInt8 := UInt8.ofNat (0x80 + n / unit % 0x40)
  if n < 0x80 then [UInt8.ofNat n]
  else if n < 0x800 then [UInt8.ofNat (0xc0 + n / 0x40), more 1]
  else if n < 0x10000 then [UInt8.ofNat (0xe0 + n / 0x1000), more 0x40, more 1]
  else [UInt8.ofNat (0xf0 + n / 0x40000), more 0x1000, more 0x40, more 1]

/-- The bytes of a text. -/
def encode (cs : List Char) : List UInt8 := cs.flatMap encodeChar

/-- The number of bytes of a text. -/
def size (cs : List Char) : Nat := (encode cs).length

/-- What the first byte of a sequence promises: its own payload bits, how many bytes follow, and
the range of the first of them. Overlong forms, surrogates and values above U+10FFFF are excluded
by that range. -/
structure Lead where
  bits : Nat
  more : Nat
  low : UInt8
  high : UInt8

def lead? (b : UInt8) : Option Lead :=
  let n := b.toNat
  if n < 0x80 then some ⟨n, 0, 0x80, 0xbf⟩
  else if n < 0xc2 then none
  else if n < 0xe0 then some ⟨n - 0xc0, 1, 0x80, 0xbf⟩
  else if n < 0xf0 then
    some ⟨n - 0xe0, 2, if n = 0xe0 then 0xa0 else 0x80, if n = 0xed then 0x9f else 0xbf⟩
  else if n < 0xf5 then
    some ⟨n - 0xf0, 3, if n = 0xf0 then 0x90 else 0x80, if n = 0xf4 then 0x8f else 0xbf⟩
  else none

/-- Read `more` continuation bytes, the first of them between `low` and `high`. The value is
`none` where one of them is missing; the bytes that could not be used stay in the rest. -/
def follow (bits : Nat) (low high : UInt8) : (more : Nat) → List UInt8 → Option Nat × List UInt8
  | 0, bs => (some bits, bs)
  | _ + 1, [] => (none, [])
  | more + 1, b :: bs =>
    if low ≤ b ∧ b ≤ high then follow (bits * 64 + (b.toNat - 0x80)) 0x80 0xbf more bs
    else (none, b :: bs)

theorem follow_length_le (bits : Nat) (low high : UInt8) (more : Nat) (bs : List UInt8) :
    (follow bits low high more bs).2.length ≤ bs.length := by
  induction bs generalizing bits low high more with
  | nil => cases more <;> simp [follow]
  | cons b bs ih =>
    cases more with
    | zero => simp [follow]
    | succ more =>
      simp only [follow]
      split
      · exact Nat.le_succ_of_le (ih ..)
      · simp

/-- Read one character, or one maximal ill-formed part, off a sequence that starts with `b`. -/
def step (b : UInt8) (bs : List UInt8) : Option Char × List UInt8 :=
  match lead? b with
  | none => (none, bs)
  | some l =>
    let r := follow l.bits l.low l.high l.more bs
    (r.1.map Char.ofNat, r.2)

theorem step_length_le (b : UInt8) (bs : List UInt8) : (step b bs).2.length ≤ bs.length := by
  unfold step
  split
  · simp
  · exact follow_length_le ..

/-- The characters of a byte sequence, with `none` for each maximal ill-formed part. -/
def units : List UInt8 → List (Option Char)
  | [] => []
  | b :: bs => (step b bs).1 :: units (step b bs).2
termination_by bs => bs.length
decreasing_by exact Nat.lt_succ_of_le (step_length_le ..)

/-- The text of a byte sequence, with U+FFFD for each maximal ill-formed part. -/
def decodeLossy (bs : List UInt8) : List Char := (units bs).map (·.getD '\uFFFD')

/-- The text of a byte sequence that is well-formed throughout. -/
def decode? (bs : List UInt8) : Option (List Char) := (units bs).mapM id

end PublishDesk.Text.Utf8
