import Mathlib.Data.List.Infix
import Mathlib.Tactic.IntervalCases
import PublishDesk.Toml.Quoting
import PublishDesk.Toml.Token

/-!
# Quoted texts are read back

Whatever form a text is written in, reading it gives the text back and leaves what follows
(`readQuoted?_quote`). What a form has to be careful about is what ends it: the single quote of a
literal, and three quotes in a row in a block. A block may end with up to two quotes of its own,
which stand right before the three that close it; so the runs of quotes in its text, as they are
written, have at most two quotes, the last of them included (`exists_run_escapeBlock`,
`le_longestRun`).
-/

namespace PublishDesk.Toml

variable {c q : Char} {cs w rest : List Char}

/-! ## Characters -/

theorem isAllowed_of_not_lt (hspace : ¬ c < ' ') (hdelete : c ≠ '\x7f') : isAllowed c := by
  simp [isAllowed, Char.not_lt.1 hspace, hdelete]

theorem isAllowed_of_not_isControl (h : isControl c = false) (hbreak : c ≠ '\n') :
    isAllowed c := by
  by_cases htab : c = '\t'
  · simp [isAllowed, htab]
  · simp only [isControl, bne, beq_eq_false_iff_ne.2 htab,
      beq_eq_false_iff_ne.2 hbreak, Bool.not_false, Bool.and_true, Bool.or_eq_false_iff,
      decide_eq_false_iff_not, beq_eq_false_iff_ne] at h
    exact isAllowed_of_not_lt h.1 h.2

theorem ne_of_isAllowed (h : isAllowed c) : c ≠ '\n' ∧ c ≠ '\r' := by
  constructor <;> rintro rfl <;> exact absurd h (by decide)

/-- How a character stands in a basic text: as itself, or as an escape. -/
inductive Written (c : Char) : List Char → Prop
  | plain (hallowed : isAllowed c) (hquote : c ≠ '"') (hbackslash : c ≠ '\\') : Written c [c]
  | escaped {d : Char} {e : List Char} (hblank : isBlank d = false) (hbreak : d ≠ '\n' ∧ d ≠ '\r')
    (h : ∀ rest, readEscape (d :: e ++ rest) = some (c, rest)) : Written c ('\\' :: d :: e)

theorem written_escapeControl (h : c < ' ' ∨ c = '\x7f') : Written c (escapeControl c) := by
  have hcases : ∃ n, (n < 32 ∨ n = 127) ∧ c = Char.ofNat n := by
    refine ⟨c.toNat, ?_, (Char.ofNat_toNat c).symm⟩
    rcases h with h | rfl
    · exact .inl h
    · exact .inr rfl
  obtain ⟨n, hn | rfl, rfl⟩ := hcases
  · interval_cases n <;> exact .escaped rfl (by decide) fun rest => rfl
  · exact .escaped rfl (by decide) fun rest => rfl

theorem written_quote : Written '"' ['\\', '"'] :=
  .escaped (d := '"') rfl (by decide) fun _ => rfl

theorem written_escapeBasic (c : Char) : Written c (escapeBasic c) := by
  unfold escapeBasic
  split_ifs with hquote hbackslash hcontrol
  · exact hquote ▸ written_quote
  · subst hbackslash
    exact .escaped rfl (by decide) fun _ => rfl
  · exact written_escapeControl hcontrol
  · rw [not_or] at hcontrol
    exact .plain (isAllowed_of_not_lt hcontrol.1 hcontrol.2) hquote hbackslash

theorem Written.exists_head (h : Written c w) :
    ∃ d e, w = d :: e ∧ d ≠ '"' ∧ d ≠ '\n' ∧ d ≠ '\r' := by
  cases h with
  | plain hallowed hquote hbackslash => exact ⟨c, [], rfl, hquote, ne_of_isAllowed hallowed⟩
  | @escaped d e => exact ⟨'\\', d :: e, rfl, by decide, by decide, by decide⟩

/-! ## Texts of one line -/

theorem Written.readBasic (h : Written c w) (rest : List Char) :
    readBasic (w ++ rest) = (readBasic rest).map fun r => (c :: r.1, r.2) := by
  cases h with
  | plain hallowed hquote hbackslash =>
    rw [List.singleton_append, Toml.readBasic.eq_4 _ _ hquote hbackslash, if_pos hallowed]
  | escaped hblank hbreak h =>
    rw [List.cons_append, Toml.readBasic, h]

theorem readBasic_flatMap (cs rest : List Char) :
    readBasic (cs.flatMap escapeBasic ++ '"' :: rest) = some (cs, rest) := by
  induction cs with
  | nil => rw [List.flatMap_nil, List.nil_append, readBasic]
  | cons c cs ih =>
    rw [List.flatMap_cons, List.append_assoc, (written_escapeBasic c).readBasic, ih]
    rfl

theorem readLiteral_append (h : ∀ c ∈ cs, isAllowed c ∧ c ≠ '\'') :
    readLiteral (cs ++ '\'' :: rest) = some (cs, rest) := by
  induction cs with
  | nil => rfl
  | cons c cs ih =>
    have ⟨hallowed, hquote⟩ := h c (.head _)
    rw [List.cons_append, readLiteral.eq_3 _ _ hquote, if_pos hallowed,
      ih fun d hd => h d (.tail _ hd)]
    rfl

/-! ## Runs of quotes -/

/-- A text starts with a run of quotes, which may be empty. -/
theorem exists_run (q : Char) (cs : List Char) :
    ∃ k t, cs = List.replicate k q ++ t ∧ t.head? ≠ some q := by
  induction cs with
  | nil => exact ⟨0, [], rfl, nofun⟩
  | cons c cs ih =>
    by_cases h : c = q
    · obtain ⟨k, t, rfl, ht⟩ := ih
      exact ⟨k + 1, t, by rw [h, List.replicate_succ, List.cons_append], ht⟩
    · exact ⟨0, c :: cs, rfl, fun hc => h (Option.some.inj hc)⟩

theorem blockEnd?_replicate {k : Nat} (hk : k ≤ 5) (h : rest.head? ≠ some q) :
    blockEnd? q (List.replicate k q ++ rest) =
      if k < 3 then none else some (List.replicate (k - 3) q, rest) := by
  have hrun : (((List.replicate k q ++ rest).take 5).takeWhile (· == q)).length = k := by
    have hrest : (rest.take (5 - k)).takeWhile (· == q) = [] := by
      cases rest with
      | nil => simp
      | cons d t =>
        have hd : (d == q) = false := beq_eq_false_iff_ne.2 fun hd => h (hd ▸ rfl)
        cases 5 - k <;> simp [hd]
    rw [List.take_append, List.take_replicate, Nat.min_eq_right hk, List.length_replicate,
      List.takeWhile_append_of_pos (by simp), hrest, List.append_nil, List.length_replicate]
  simp only [blockEnd?, hrun]
  rw [List.drop_left' (List.length_replicate ..)]

theorem le_longestRun_go (best run : Nat) (cs : List Char) :
    max best run ≤ longestRun.go q best run cs := by
  induction cs generalizing best run with
  | nil => exact Nat.le_refl _
  | cons c cs ih =>
    rw [longestRun.go]
    split_ifs with h
    · exact Nat.le_trans (by omega) (ih best (run + 1))
    · exact Nat.le_trans (by omega) (ih (max best run) 0)

theorem add_le_longestRun_go (k best run : Nat) (cs : List Char) :
    run + k ≤ longestRun.go q best run (List.replicate k q ++ cs) := by
  induction k generalizing run with
  | zero => exact Nat.le_trans (Nat.le_max_right ..) (le_longestRun_go ..)
  | succ k ih =>
    rw [List.replicate_succ, List.cons_append, longestRun.go, if_pos rfl]
    exact Nat.le_trans (by omega) (ih (run + 1))

/-- Where a run starts makes no difference to what is counted in it. -/
theorem exists_longestRun_go (best run : Nat) (cs ds : List Char) :
    ∃ best' run', longestRun.go q best run (cs ++ ds) = longestRun.go q best' run' ds := by
  induction cs generalizing best run with
  | nil => exact ⟨best, run, rfl⟩
  | cons c cs ih =>
    rw [List.cons_append, longestRun.go]
    split_ifs
    · exact ih best (run + 1)
    · exact ih (max best run) 0

theorem le_longestRun {k : Nat} (h : List.replicate k q <:+: cs) : k ≤ longestRun q cs := by
  obtain ⟨before, after, rfl⟩ := h
  obtain ⟨best, run, hgo⟩ :=
    exists_longestRun_go (q := q) 0 0 before (List.replicate k q ++ after)
  rw [longestRun, List.append_assoc, hgo]
  exact Nat.le_trans (by omega) (add_le_longestRun_go k best run after)

/-! ## Blocks -/

/-- A run of at most two quotes that another character follows does not end a block; one that the
end follows is the end of its text. -/
theorem blockEnd?_run {k : Nat} {t : List Char} (hk : k ≤ 2) (ht : t.head? ≠ some q)
    (hrest : rest.head? ≠ some q) :
    blockEnd? q (List.replicate k q ++ t ++ (List.replicate 3 q ++ rest)) =
      if t = [] then some (List.replicate k q, rest) else none := by
  cases t with
  | nil =>
    rw [List.append_nil, ← List.append_assoc, List.replicate_append_replicate,
      blockEnd?_replicate (by omega) hrest, if_neg (by omega), Nat.add_sub_cancel, if_pos rfl]
  | cons d t =>
    have ht : (d :: (t ++ (List.replicate 3 q ++ rest))).head? ≠ some q := ht
    rw [List.append_assoc, List.cons_append, blockEnd?_replicate (by omega) ht,
      if_pos (by omega), if_neg nofun]

theorem joinedLine?_eq_none {d : Char} {cs : List Char} (hblank : isBlank d = false)
    (hbreak : d ≠ '\n' ∧ d ≠ '\r') : joinedLine? (d :: cs) = none := by
  rw [joinedLine?, List.dropWhile_cons_of_neg (by simp [hblank])]
  split
  · next h => exact absurd (List.cons.inj h).1 hbreak.1
  · next h => exact absurd (List.cons.inj h).1 hbreak.2
  · rfl

theorem Written.readBasicBlock (h : Written c w) (rest : List Char) :
    readBasicBlock (w ++ rest) = (readBasicBlock rest).map fun r => (c :: r.1, r.2) := by
  cases h with
  | plain hallowed hquote hbackslash =>
    have ⟨hnewline, hreturn⟩ := ne_of_isAllowed hallowed
    rw [List.singleton_append, Toml.readBasicBlock.eq_6 _ _ hquote hbackslash hnewline
      fun _ h _ => hreturn h, if_pos hallowed]
  | @escaped d e hblank hbreak h =>
    have hjoined : joinedLine? (d :: e ++ rest) = none := joinedLine?_eq_none hblank hbreak
    rw [List.cons_append, Toml.readBasicBlock, hjoined, h]

/-- The run of quotes at the start of a basic block has at most two quotes, those right before it
counted. It takes the rest of the text, or something that is no quote follows. -/
theorem exists_run_escapeBlock {quotes : Nat} (hquotes : quotes ≤ 2) (cs : List Char) :
    ∃ k t, escapeBlock quotes cs = List.replicate k '"' ++ t ∧ quotes + k ≤ 2 ∧
      t.head? ≠ some '"' ∧ (t = [] → cs = List.replicate k '"') := by
  induction cs generalizing quotes with
  | nil => exact ⟨0, [], rfl, hquotes, nofun, fun _ => rfl⟩
  | cons c cs ih =>
    rw [escapeBlock]
    split_ifs with hquote htwo hbreak
    · exact ⟨0, _, rfl, hquotes, by simp, nofun⟩
    · have hless : quotes + 1 ≤ 2 := by omega
      obtain ⟨k, t, h, hk, ht, hall⟩ := ih hless
      exact ⟨k + 1, t, by rw [h]; rfl, by omega, ht, fun h => by rw [hall h, hquote]; rfl⟩
    · exact ⟨0, _, rfl, hquotes, by simp, nofun⟩
    · obtain ⟨d, e, he, hd, -⟩ := (written_escapeBasic c).exists_head
      exact ⟨0, _, rfl, hquotes, by simp [he, hd], by simp [he]⟩

theorem readBasicBlock_end {r : List Char × List Char} (h : blockEnd? '"' ('"' :: cs) = some r) :
    readBasicBlock ('"' :: cs) = some r := by
  rw [readBasicBlock, h]

theorem readBasicBlock_quote (h : blockEnd? '"' ('"' :: cs) = none) :
    readBasicBlock ('"' :: cs) = (readBasicBlock cs).map fun r => ('"' :: r.1, r.2) := by
  rw [readBasicBlock, h]

theorem readBasicBlock_escapeBlock {quotes : Nat} (hquotes : quotes ≤ 2)
    (hrest : rest.head? ≠ some '"') (cs : List Char) :
    readBasicBlock (escapeBlock quotes cs ++ (List.replicate 3 '"' ++ rest)) =
      some (cs, rest) := by
  induction cs generalizing quotes with
  | nil => exact readBasicBlock_end (blockEnd?_run (k := 0) (t := []) (by decide) nofun hrest)
  | cons c cs ih =>
    obtain ⟨k, t, hrun, hk, ht, hall⟩ := exists_run_escapeBlock hquotes (c :: cs)
    have hend := blockEnd?_run (k := k) (by omega) ht hrest
    rw [← hrun] at hend
    rw [escapeBlock]
    split_ifs with hquote htwo hbreak
    · subst hquote
      change readBasicBlock (['\\', '"'] ++ (escapeBlock 0 cs ++ _)) = _
      rw [written_quote.readBasicBlock, ih (Nat.zero_le 2)]
      rfl
    · rw [escapeBlock, if_pos hquote, if_neg htwo, List.cons_append] at hend
      rw [List.cons_append]
      by_cases hnil : t = []
      · rw [if_pos hnil] at hend
        rw [readBasicBlock_end hend, hall hnil]
      · rw [if_neg hnil] at hend
        rw [readBasicBlock_quote hend, ih (by omega), hquote]
        rfl
    · rw [List.cons_append, readBasicBlock, ih (Nat.zero_le 2), hbreak]
      rfl
    · rw [List.append_assoc, (written_escapeBasic c).readBasicBlock, ih (Nat.zero_le 2)]
      rfl

theorem readLiteralBlock_end {r : List Char × List Char}
    (h : blockEnd? '\'' ('\'' :: cs) = some r) : readLiteralBlock ('\'' :: cs) = some r := by
  rw [readLiteralBlock, h]

theorem readLiteralBlock_quote (h : blockEnd? '\'' ('\'' :: cs) = none) :
    readLiteralBlock ('\'' :: cs) = (readLiteralBlock cs).map fun r => ('\'' :: r.1, r.2) := by
  rw [readLiteralBlock, h]

theorem readLiteralBlock_append (hrest : rest.head? ≠ some '\'')
    (hplain : ∀ c ∈ cs, isControl c = false)
    (hruns : ∀ k, List.replicate k '\'' <:+: cs → k ≤ 2) :
    readLiteralBlock (cs ++ (List.replicate 3 '\'' ++ rest)) = some (cs, rest) := by
  induction cs with
  | nil => exact readLiteralBlock_end (blockEnd?_run (k := 0) (t := []) (by decide) nofun hrest)
  | cons c cs ih =>
    have ih := ih (fun d hd => hplain d (.tail _ hd)) fun k hk =>
      hruns k (hk.trans (List.suffix_cons c cs).isInfix)
    rw [List.cons_append]
    by_cases hquote : c = '\''
    · obtain ⟨k, t, hrun, ht⟩ := exists_run '\'' (c :: cs)
      have hend := blockEnd?_run (hruns k (hrun ▸ (List.prefix_append ..).isInfix)) ht hrest
      rw [← hrun, List.cons_append, hquote] at hend
      rw [hquote]
      by_cases hnil : t = []
      · rw [if_pos hnil] at hend
        rw [readLiteralBlock_end hend, ← hquote, hrun, hnil, List.append_nil, hquote]
      · rw [if_neg hnil] at hend
        rw [readLiteralBlock_quote hend, ih]
        rfl
    · by_cases hbreak : c = '\n'
      · rw [hbreak, readLiteralBlock, ih]
        rfl
      · have hallowed := isAllowed_of_not_isControl (hplain c (.head _)) hbreak
        rw [readLiteralBlock.eq_5 _ _ hquote hbreak fun _ h _ => (ne_of_isAllowed hallowed).2 h,
          if_pos hallowed, ih]
        rfl

/-! ## Forms -/

theorem dropFirstBreak_cons (h : c ≠ '\n' ∧ c ≠ '\r') : dropFirstBreak (c :: cs) = c :: cs := by
  unfold dropFirstBreak
  split
  · next heq => exact absurd (List.cons.inj heq).1 h.1
  · next heq => exact absurd (List.cons.inj heq).1 h.2
  · rfl

/-- The line break that is put in front of a block is dropped again; where none was, there is none
to drop. -/
theorem dropFirstBreak_firstBreak (hreturn : w.head? ≠ some '\r')
    (hbreak : w.head? = some '\n' → '\n' ∈ cs) : dropFirstBreak (firstBreak cs ++ w) = w := by
  unfold firstBreak
  split_ifs with h
  · rfl
  · cases w with
    | nil => rfl
    | cons c w =>
      refine dropFirstBreak_cons ⟨?_, fun hc => hreturn (hc ▸ rfl)⟩
      exact fun hc => h (List.contains_iff_mem.2 (hbreak (hc ▸ rfl)))

theorem head?_escapeBlock (cs rest : List Char) :
    (escapeBlock 0 cs ++ '"' :: rest).head? ≠ some '\r' ∧
      ((escapeBlock 0 cs ++ '"' :: rest).head? = some '\n' → '\n' ∈ cs) := by
  cases cs with
  | nil => exact ⟨by simp [escapeBlock], by simp [escapeBlock]⟩
  | cons c cs =>
    rw [escapeBlock]
    split_ifs with hquote htwo hbreak
    · exact absurd htwo (by decide)
    · simp
    · simp [hbreak]
    · obtain ⟨d, e, he, -, hnewline, hreturn⟩ := (written_escapeBasic c).exists_head
      simp [he, hnewline, hreturn]

theorem formOf_eq_literal (h : formOf cs = .literal) :
    (∀ c ∈ cs, isAllowed c ∧ c ≠ '\'') ∧ cs ≠ [] := by
  simp only [formOf] at h
  split_ifs at h with hplain _ hliteral
  simp only [Bool.and_eq_true, Bool.not_eq_true', List.any_eq_false, List.contains_eq_mem,
    decide_eq_false_iff_not, Bool.not_eq_true] at hliteral
  obtain ⟨⟨hcontrols, hquote⟩, hbreak⟩ := hliteral
  refine ⟨fun c hc => ⟨?_, fun h => hquote (h ▸ hc)⟩, fun h => hplain (h ▸ rfl)⟩
  exact isAllowed_of_not_isControl (hcontrols c hc) fun h => hbreak (h ▸ hc)

theorem formOf_eq_literalBlock (h : formOf cs = .literalBlock) :
    (∀ c ∈ cs, isControl c = false) ∧ longestRun '\'' cs ≤ 2 := by
  simp only [formOf] at h
  split_ifs at h with _ _ _ _ hblock
  simpa only [Bool.and_eq_true, Bool.not_eq_true', List.any_eq_false, decide_eq_true_eq,
    Bool.not_eq_true] using hblock

/-- The token that a quoted text is. -/
def quotedToken (cs : List Char) : Token :=
  match formOf cs with
  | .basic | .literal => .quoted cs
  | .basicBlock | .literalBlock => .block cs

theorem readQuoted?_double (h : ∀ t, w ≠ '"' :: '"' :: t) :
    readQuoted? ('"' :: w) = (readBasic w).map fun r => (.quoted r.1, r.2) := by
  rw [readQuoted?]
  exact fun t ht => h t ht

theorem readQuoted?_single (h : ∀ t, w ≠ '\'' :: '\'' :: t) :
    readQuoted? ('\'' :: w) = (readLiteral w).map fun r => (.quoted r.1, r.2) := by
  rw [readQuoted?]
  exact fun t ht => h t ht

/-- The text between two quotes does not start with one, so they open no block. -/
theorem flatMap_escapeBasic_ne (hrest : rest.head? ≠ some '"') (cs t : List Char) :
    cs.flatMap escapeBasic ++ '"' :: rest ≠ '"' :: '"' :: t := by
  intro ht
  cases cs with
  | nil => exact hrest ((List.cons.inj ht).2 ▸ rfl)
  | cons c cs =>
    obtain ⟨d, e, he, hd, -⟩ := (written_escapeBasic c).exists_head
    rw [List.flatMap_cons, he] at ht
    exact hd (List.cons.inj ht).1

theorem readQuoted?_quote (hrest : ∀ c ∈ rest.head?, c ≠ '"' ∧ c ≠ '\'') (cs : List Char) :
    readQuoted? (quote cs ++ rest) = some (quotedToken cs, rest) := by
  have hdouble : rest.head? ≠ some '"' := fun h => (hrest _ h).1 rfl
  have hsingle : rest.head? ≠ some '\'' := fun h => (hrest _ h).2 rfl
  unfold quote quotedToken
  cases hform : formOf cs with
  | basic =>
    simp only [List.append_assoc, List.cons_append, List.nil_append]
    rw [readQuoted?_double (flatMap_escapeBasic_ne hdouble cs), readBasic_flatMap]
    rfl
  | literal =>
    obtain ⟨hplain, hne⟩ := formOf_eq_literal hform
    obtain ⟨c, t, rfl⟩ := List.exists_cons_of_ne_nil hne
    have hopen : ∀ u, c :: t ++ '\'' :: rest ≠ '\'' :: '\'' :: u :=
      fun u hu => (hplain c (.head _)).2 (List.cons.inj hu).1
    simp only [List.append_assoc, List.cons_append, List.nil_append] at hopen ⊢
    rw [readQuoted?_single hopen]
    exact congrArg (Option.map _) (readLiteral_append hplain)
  | basicBlock =>
    have ⟨hreturn, hbreak⟩ := head?_escapeBlock cs ('"' :: '"' :: rest)
    simp only [List.append_assoc]
    change (readBasicBlock (dropFirstBreak (firstBreak cs ++
      (escapeBlock 0 cs ++ '"' :: '"' :: '"' :: rest)))).map _ = _
    rw [dropFirstBreak_firstBreak hreturn hbreak]
    exact congrArg (Option.map _) (readBasicBlock_escapeBlock (Nat.zero_le 2) hdouble cs)
  | literalBlock =>
    obtain ⟨hplain, hrun⟩ := formOf_eq_literalBlock hform
    simp only [List.append_assoc]
    change (readLiteralBlock (dropFirstBreak (firstBreak cs ++
      (cs ++ '\'' :: '\'' :: '\'' :: rest)))).map _ = _
    rw [dropFirstBreak_firstBreak]
    · exact congrArg (Option.map _)
        (readLiteralBlock_append hsingle hplain fun k hk => (le_longestRun hk).trans hrun)
    · cases cs with
      | nil => exact nofun
      | cons c cs =>
        rintro ⟨rfl⟩
        exact absurd (hplain '\r' (.head _)) (by decide)
    · cases cs with
      | nil => exact nofun
      | cons c cs =>
        rintro ⟨rfl⟩
        exact .head _

end PublishDesk.Toml
