import PublishDesk.Text.Hex

/-!
# Tokens of TOML

`tokens?` cuts a text into tokens, with the four forms of quoted text already decoded. A comment
leaves no token. Runs of characters that are not delimiters are left as they are (`bare`): whether
such a run is a key, a part of a number or nothing depends on where it stands.
-/

namespace PublishDesk.Toml

inductive Token where
  /-- A run of spaces and tabs; `single` if it is one space. -/
  | blank (single : Bool)
  | newline
  | openBracket
  | closeBracket
  | openBrace
  | closeBrace
  | comma
  | dot
  | equals
  | bare (text : List Char)
  /-- A quoted text on one line, which may be a key. -/
  | quoted (text : List Char)
  /-- A quoted text that may span several lines. -/
  | block (text : List Char)
deriving DecidableEq, Repr

/-- Spaces and tabs. -/
def isBlank (c : Char) : Bool := c == ' ' || c == '\t'

/-- The characters that may stand in comments and quoted texts: no control but the tab. -/
def isAllowed (c : Char) : Bool := c == '\t' || (' ' ≤ c && c != '\x7f')

/-- The characters that end a bare run. A quote does not: it only starts a token. -/
def isDelimiter (c : Char) : Bool :=
  isBlank c || "\n\r#[],.=\x7b\x7d".toList.contains c

/-! ## Quoted texts -/

/-- The escapes of one letter. -/
def shortEscape? : Char → Option Char
  | 'b' => some '\x08'
  | 't' => some '\t'
  | 'n' => some '\n'
  | 'f' => some '\x0c'
  | 'r' => some '\r'
  | 'e' => some '\x1b'
  | '"' => some '"'
  | '\\' => some '\\'
  | _ => none

/-- The number of digits of an escape by code point. -/
def escapeWidth? : Char → Option Nat
  | 'x' => some 2
  | 'u' => some 4
  | 'U' => some 8
  | _ => none

/-- The character with a code point. -/
def scalar? (n : Nat) : Option Char := if n.isValidChar then some (Char.ofNat n) else none

/-- The character that an escape stands for, after its backslash. -/
def readEscape : List Char → Option (Char × List Char)
  | [] => none
  | c :: cs =>
    match escapeWidth? c with
    | some k => (Text.readHex 0 k cs).bind fun r => (scalar? r.1).map (·, r.2)
    | none => (shortEscape? c).map (·, cs)

theorem readEscape_length {cs rest : List Char} {c : Char} (h : readEscape cs = some (c, rest)) :
    rest.length < cs.length := by
  unfold readEscape at h
  split at h
  · simp at h
  · split at h
    · simp only [Option.bind_eq_some_iff, Option.map_eq_some_iff, Prod.mk.injEq] at h
      obtain ⟨r, hr, d, _, _, rfl⟩ := h
      have := Text.readHex_length hr
      simp only [List.length_cons]
      omega
    · simp only [Option.map_eq_some_iff, Prod.mk.injEq] at h
      obtain ⟨_, _, _, rfl⟩ := h
      simp

/-- The text up to the closing quote of a basic text of one line, and what remains. -/
def readBasic : List Char → Option (List Char × List Char)
  | [] => none
  | '"' :: cs => some ([], cs)
  | '\\' :: cs =>
    match _h : readEscape cs with
    | none => none
    | some (c, rest) => (readBasic rest).map fun r => (c :: r.1, r.2)
  | c :: cs => if isAllowed c then (readBasic cs).map fun r => (c :: r.1, r.2) else none
termination_by cs => cs.length
decreasing_by
  · have := readEscape_length _h
    simp only [List.length_cons]
    omega
  · simp

/-- The text up to the closing quote of a literal text of one line, and what remains. -/
def readLiteral : List Char → Option (List Char × List Char)
  | [] => none
  | '\'' :: cs => some ([], cs)
  | c :: cs => if isAllowed c then (readLiteral cs).map fun r => (c :: r.1, r.2) else none

/-- The end of a block: three quotes, or four or five of which the first one or two belong to the
text. Returns those and what remains. -/
def blockEnd? (q : Char) (cs : List Char) : Option (List Char × List Char) :=
  let n := ((cs.take 5).takeWhile (· == q)).length
  if n < 3 then none else some (List.replicate (n - 3) q, cs.drop n)

/-- What remains after a backslash at the end of a line: the line break and all white space that
follows are dropped. -/
def joinedLine? (cs : List Char) : Option (List Char) :=
  match cs.dropWhile isBlank with
  | '\n' :: rest => some (dropSpace rest)
  | '\r' :: '\n' :: rest => some (dropSpace rest)
  | _ => none
where
  dropSpace : List Char → List Char
    | [] => []
    | '\r' :: '\n' :: cs => dropSpace cs
    | c :: cs => if isBlank c || c == '\n' then dropSpace cs else c :: cs

theorem dropSpace_length (cs : List Char) : (joinedLine?.dropSpace cs).length ≤ cs.length := by
  fun_induction joinedLine?.dropSpace cs <;> simp_all <;> omega

theorem joinedLine?_length {cs rest : List Char} (h : joinedLine? cs = some rest) :
    rest.length ≤ cs.length := by
  have hd := (List.dropWhile_sublist isBlank (l := cs)).length_le
  unfold joinedLine? at h
  split at h
  · next r hr =>
    have := dropSpace_length r
    simp only [Option.some.injEq] at h
    simp only [hr, List.length_cons] at hd
    rw [← h]
    omega
  · next r hr =>
    have := dropSpace_length r
    simp only [Option.some.injEq] at h
    simp only [hr, List.length_cons] at hd
    rw [← h]
    omega
  · simp at h

/-- The text up to the end of a basic block, and what remains. -/
def readBasicBlock : List Char → Option (List Char × List Char)
  | [] => none
  | '"' :: cs =>
    match blockEnd? '"' ('"' :: cs) with
    | some r => some r
    | none => (readBasicBlock cs).map fun r => ('"' :: r.1, r.2)
  | '\\' :: cs =>
    match _j : joinedLine? cs with
    | some rest => readBasicBlock rest
    | none =>
      match _h : readEscape cs with
      | none => none
      | some (c, rest) => (readBasicBlock rest).map fun r => (c :: r.1, r.2)
  | '\n' :: cs => (readBasicBlock cs).map fun r => ('\n' :: r.1, r.2)
  | '\r' :: '\n' :: cs => (readBasicBlock cs).map fun r => ('\r' :: '\n' :: r.1, r.2)
  | c :: cs => if isAllowed c then (readBasicBlock cs).map fun r => (c :: r.1, r.2) else none
termination_by cs => cs.length
decreasing_by
  · simp
  · have := joinedLine?_length _j
    simp only [List.length_cons]
    omega
  · have := readEscape_length _h
    simp only [List.length_cons]
    omega
  all_goals simp only [List.length_cons]; omega

/-- The text up to the end of a literal block, and what remains. -/
def readLiteralBlock : List Char → Option (List Char × List Char)
  | [] => none
  | '\'' :: cs =>
    match blockEnd? '\'' ('\'' :: cs) with
    | some r => some r
    | none => (readLiteralBlock cs).map fun r => ('\'' :: r.1, r.2)
  | '\n' :: cs => (readLiteralBlock cs).map fun r => ('\n' :: r.1, r.2)
  | '\r' :: '\n' :: cs => (readLiteralBlock cs).map fun r => ('\r' :: '\n' :: r.1, r.2)
  | c :: cs => if isAllowed c then (readLiteralBlock cs).map fun r => (c :: r.1, r.2) else none

/-- A line break right after the opening of a block is not part of its text. -/
def dropFirstBreak : List Char → List Char
  | '\n' :: cs => cs
  | '\r' :: '\n' :: cs => cs
  | cs => cs

/-- The token of a quoted text, from its first quote on. -/
def readQuoted? : List Char → Option (Token × List Char)
  | '"' :: '"' :: '"' :: cs => (readBasicBlock (dropFirstBreak cs)).map fun r => (.block r.1, r.2)
  | '"' :: cs => (readBasic cs).map fun r => (.quoted r.1, r.2)
  | '\'' :: '\'' :: '\'' :: cs =>
    (readLiteralBlock (dropFirstBreak cs)).map fun r => (.block r.1, r.2)
  | '\'' :: cs => (readLiteral cs).map fun r => (.quoted r.1, r.2)
  | _ => none

theorem readBasic_length {cs : List Char} {r : List Char × List Char}
    (h : readBasic cs = some r) : r.2.length < cs.length := by
  fun_induction readBasic cs generalizing r with
  | case1 => simp at h
  | case2 cs => simp only [Option.some.injEq] at h; subst h; simp
  | case3 => simp at h
  | case4 cs c rest he ih =>
    obtain ⟨r', hr', rfl⟩ := Option.map_eq_some_iff.1 h
    have := ih hr'
    have := readEscape_length he
    simp only [List.length_cons]
    omega
  | case5 c cs _ _ _ ih =>
    obtain ⟨r', hr', rfl⟩ := Option.map_eq_some_iff.1 h
    have := ih hr'
    simp only [List.length_cons]
    omega
  | case6 => simp at h

theorem readLiteral_length {cs : List Char} {r : List Char × List Char}
    (h : readLiteral cs = some r) : r.2.length < cs.length := by
  fun_induction readLiteral cs generalizing r with
  | case1 => simp at h
  | case2 cs => simp only [Option.some.injEq] at h; subst h; simp
  | case3 c cs _ _ ih =>
    obtain ⟨r', hr', rfl⟩ := Option.map_eq_some_iff.1 h
    have := ih hr'
    simp only [List.length_cons]
    omega
  | case4 => simp at h

theorem blockEnd?_length {q : Char} {cs : List Char} {r : List Char × List Char}
    (h : blockEnd? q cs = some r) : r.2.length < cs.length := by
  unfold blockEnd? at h
  simp only at h
  split at h
  · simp at h
  · next hn =>
    simp only [Option.some.injEq] at h
    have h₁ := (List.takeWhile_sublist (· == q) (l := cs.take 5)).length_le
    have h₂ : (cs.take 5).length ≤ cs.length := List.length_take_le' ..
    subst h
    simp only [List.length_drop]
    omega

theorem readBasicBlock_length {cs : List Char} {r : List Char × List Char}
    (h : readBasicBlock cs = some r) : r.2.length < cs.length := by
  fun_induction readBasicBlock cs generalizing r with
  | case1 => simp at h
  | case2 cs r' hr' =>
    simp only [Option.some.injEq] at h
    subst h
    exact blockEnd?_length hr'
  | case3 cs _ ih =>
    obtain ⟨r', hr', rfl⟩ := Option.map_eq_some_iff.1 h
    have := ih hr'
    simp only [List.length_cons]
    omega
  | case4 cs rest hj ih =>
    have := ih h
    have := joinedLine?_length hj
    simp only [List.length_cons]
    omega
  | case5 => simp at h
  | case6 cs _ c rest he ih =>
    obtain ⟨r', hr', rfl⟩ := Option.map_eq_some_iff.1 h
    have := ih hr'
    have := readEscape_length he
    simp only [List.length_cons]
    omega
  | case7 cs ih =>
    obtain ⟨r', hr', rfl⟩ := Option.map_eq_some_iff.1 h
    have := ih hr'
    simp only [List.length_cons]
    omega
  | case8 cs ih =>
    obtain ⟨r', hr', rfl⟩ := Option.map_eq_some_iff.1 h
    have := ih hr'
    simp only [List.length_cons]
    omega
  | case9 c cs _ _ _ _ _ ih =>
    obtain ⟨r', hr', rfl⟩ := Option.map_eq_some_iff.1 h
    have := ih hr'
    simp only [List.length_cons]
    omega
  | case10 => simp at h

theorem readLiteralBlock_length {cs : List Char} {r : List Char × List Char}
    (h : readLiteralBlock cs = some r) : r.2.length < cs.length := by
  fun_induction readLiteralBlock cs generalizing r with
  | case1 => simp at h
  | case2 cs r' hr' =>
    simp only [Option.some.injEq] at h
    subst h
    exact blockEnd?_length hr'
  | case3 cs _ ih =>
    obtain ⟨r', hr', rfl⟩ := Option.map_eq_some_iff.1 h
    have := ih hr'
    simp only [List.length_cons]
    omega
  | case4 cs ih =>
    obtain ⟨r', hr', rfl⟩ := Option.map_eq_some_iff.1 h
    have := ih hr'
    simp only [List.length_cons]
    omega
  | case5 cs ih =>
    obtain ⟨r', hr', rfl⟩ := Option.map_eq_some_iff.1 h
    have := ih hr'
    simp only [List.length_cons]
    omega
  | case6 c cs _ _ _ _ ih =>
    obtain ⟨r', hr', rfl⟩ := Option.map_eq_some_iff.1 h
    have := ih hr'
    simp only [List.length_cons]
    omega
  | case7 => simp at h

theorem dropFirstBreak_length (cs : List Char) : (dropFirstBreak cs).length ≤ cs.length := by
  unfold dropFirstBreak
  split <;> simp
  omega

theorem readQuoted?_length {cs : List Char} {r : Token × List Char}
    (h : readQuoted? cs = some r) : r.2.length < cs.length := by
  unfold readQuoted? at h
  split at h
  · next cs =>
    obtain ⟨r', hr', rfl⟩ := Option.map_eq_some_iff.1 h
    have := readBasicBlock_length hr'
    have := dropFirstBreak_length cs
    simp only [List.length_cons]
    omega
  · obtain ⟨r', hr', rfl⟩ := Option.map_eq_some_iff.1 h
    have := readBasic_length hr'
    simp only [List.length_cons]
    omega
  · next cs =>
    obtain ⟨r', hr', rfl⟩ := Option.map_eq_some_iff.1 h
    have := readLiteralBlock_length hr'
    have := dropFirstBreak_length cs
    simp only [List.length_cons]
    omega
  · obtain ⟨r', hr', rfl⟩ := Option.map_eq_some_iff.1 h
    have := readLiteral_length hr'
    simp only [List.length_cons]
    omega
  · simp at h

/-! ## Tokens -/

/-- What remains after a comment: the text from the line break on. -/
def skipComment : List Char → Option (List Char)
  | [] => some []
  | '\n' :: cs => some ('\n' :: cs)
  | '\r' :: '\n' :: cs => some ('\r' :: '\n' :: cs)
  | c :: cs => if isAllowed c then skipComment cs else none

theorem skipComment_length {cs rest : List Char} (h : skipComment cs = some rest) :
    rest.length ≤ cs.length := by
  fun_induction skipComment cs <;> simp_all
  omega

/-- The tokens of one character. -/
def punctuation? : Char → Option Token
  | '\n' => some .newline
  | '[' => some .openBracket
  | ']' => some .closeBracket
  | '{' => some .openBrace
  | '}' => some .closeBrace
  | ',' => some .comma
  | '.' => some .dot
  | '=' => some .equals
  | _ => none

/-- The token at the start of a text, if it leaves one, and what remains. -/
def token? : List Char → Option (Option Token × List Char)
  | [] => none
  | '#' :: cs => (skipComment cs).map (none, ·)
  | '\r' :: '\n' :: cs => some (some .newline, cs)
  | c :: cs =>
    if isBlank c then
      some (some (.blank (c == ' ' && (cs.takeWhile isBlank).isEmpty)), cs.dropWhile isBlank)
    else if c = '"' ∨ c = '\'' then (readQuoted? (c :: cs)).map fun r => (some r.1, r.2)
    else match punctuation? c with
      | some t => some (some t, cs)
      | none =>
        if isDelimiter c then none
        else some (some (.bare (c :: cs.takeWhile fun d => !isDelimiter d)),
          cs.dropWhile fun d => !isDelimiter d)

theorem token?_length {cs : List Char} {r : Option Token × List Char} (h : token? cs = some r) :
    r.2.length < cs.length := by
  unfold token? at h
  split at h
  · simp at h
  · obtain ⟨rest, hr, rfl⟩ := Option.map_eq_some_iff.1 h
    have := skipComment_length hr
    simp only [List.length_cons]
    omega
  · simp only [Option.some.injEq] at h
    subst h
    simp only [List.length_cons]
    omega
  · next c cs _ _ =>
    have h₁ := (List.dropWhile_sublist isBlank (l := cs)).length_le
    have h₂ := (List.dropWhile_sublist (fun d => !isDelimiter d) (l := cs)).length_le
    split at h
    · simp only [Option.some.injEq] at h
      subst h
      simp only [List.length_cons]
      omega
    · split at h
      · obtain ⟨r', hr', rfl⟩ := Option.map_eq_some_iff.1 h
        exact readQuoted?_length hr'
      · split at h
        · simp only [Option.some.injEq] at h
          subst h
          simp
        · split at h
          · simp at h
          · simp only [Option.some.injEq] at h
            subst h
            simp only [List.length_cons]
            omega

/-- The tokens of a text. -/
def tokens? (cs : List Char) : Option (List Token) :=
  if cs = [] then some []
  else
    match _h : token? cs with
    | none => none
    | some (t, rest) => (tokens? rest).map (t.toList ++ ·)
termination_by cs.length
decreasing_by exact token?_length _h

end PublishDesk.Toml
