import Mathlib.Data.List.Nodup
import PublishDesk.Proofs.Toml.Numeral
import PublishDesk.Proofs.Toml.Quoting
import PublishDesk.Toml.Document

/-!
# Sections are read back

A section is a header and lines below it, each with a key and a value. What a reader makes of it
(`State.read`) is one more table at the end of those it has (`read_section`), whatever the
values are: a value is known by what it adds to the line it ends (`Writes`). Texts, numbers and
lists of texts are values in this sense.
-/

namespace PublishDesk.Toml

variable {c d : Char} {cs w rest : List Char} {s : State} {t : Token}

/-! ## Tokens -/

theorem ne_of_isKeyChar (h : State.isKeyChar c) : isDelimiter c = false ∧ c ≠ '"' ∧ c ≠ '\'' ∧
    c ≠ '#' := by
  refine ⟨?_, ?_, ?_, ?_⟩
  · by_contra hd
    simp only [isDelimiter, isBlank, List.contains_eq_mem, Bool.not_eq_false, Bool.or_eq_true,
      beq_iff_eq, decide_eq_true_eq] at hd
    rcases hd with (rfl | rfl) | hd
    · exact absurd h (by decide)
    · exact absurd h (by decide)
    · have hall : "\n\r#[],.=\x7b\x7d".toList.all (!State.isKeyChar ·) := rfl
      have hc : State.isKeyChar c = false := by simpa using List.all_eq_true.1 hall c hd
      exact Bool.false_ne_true (hc.symm.trans h)
  all_goals
    rintro rfl
    exact absurd h (by decide)

theorem isKeyChar_of_isDigit (h : c.isDigit) : State.isKeyChar c := by
  simp [State.isKeyChar, Char.isAlphanum, h]

theorem token?_newline (rest : List Char) :
    token? ('\n' :: rest) = some (some .newline, rest) := rfl

theorem exists_quote (cs : List Char) : ∃ q w, quote cs = q :: w ∧ (q = '"' ∨ q = '\'') := by
  unfold quote
  split
  · exact ⟨_, _, rfl, .inl rfl⟩
  · exact ⟨_, _, rfl, .inr rfl⟩
  · exact ⟨_, _, rfl, .inl rfl⟩
  · exact ⟨_, _, rfl, .inr rfl⟩

theorem isBlank_of_mem_head?_quote (cs rest : List Char) :
    ∀ c ∈ (quote cs ++ rest).head?, isBlank c = false := by
  obtain ⟨q, w, hw, rfl | rfl⟩ := exists_quote cs <;> (rw [hw]; rintro c ⟨⟩; rfl)

/-- Spaces in front of something else are one token. -/
theorem token?_blanks (n : Nat) (hrest : ∀ c ∈ rest.head?, isBlank c = false) :
    token? (List.replicate (n + 1) ' ' ++ rest) = some (some (.blank (n == 0)), rest) := by
  have hspan : rest.takeWhile isBlank = [] ∧ rest.dropWhile isBlank = rest := by
    cases rest with
    | nil => exact ⟨rfl, rfl⟩
    | cons c w =>
      have hc : ¬isBlank c := by simp [hrest c rfl]
      exact ⟨List.takeWhile_cons_of_neg hc, List.dropWhile_cons_of_neg hc⟩
  have hblank : ∀ c ∈ List.replicate n ' ', isBlank c := by simp [isBlank]
  rw [List.replicate_succ, List.cons_append]
  change some (some (Token.blank (true && (List.takeWhile isBlank (_ ++ rest)).isEmpty)),
    List.dropWhile isBlank (_ ++ rest)) = _
  rw [List.takeWhile_append_of_pos hblank, List.dropWhile_append_of_pos hblank, hspan.1, hspan.2,
    List.append_nil]
  cases n <;> rfl

/-- Characters of a key are one token if a delimiter follows. -/
theorem token?_bare (hne : cs ≠ []) (hcs : ∀ c ∈ cs, State.isKeyChar c) (hd : isDelimiter d)
    (rest : List Char) :
    token? (cs ++ d :: rest) = some (some (.bare cs), d :: rest) := by
  obtain ⟨c, cs, rfl⟩ := List.exists_cons_of_ne_nil hne
  obtain ⟨hdelimiter, hdouble, hsingle, hcomment⟩ := ne_of_isKeyChar (hcs c (.head _))
  have hmore : ∀ e ∈ cs, !isDelimiter e := fun e he => by
    rw [(ne_of_isKeyChar (hcs e (.tail _ he))).1]
    rfl
  have hreturn : c ≠ '\r' := by
    rintro rfl
    exact absurd hdelimiter (by decide)
  have hblank : isBlank c = false := by
    rw [isDelimiter, Bool.or_eq_false_iff] at hdelimiter
    exact hdelimiter.1
  have hpunctuation : punctuation? c = none := by
    unfold punctuation?
    split <;> first | rfl | exact absurd hdelimiter (by decide)
  rw [List.cons_append, token?]
  · rw [if_neg (by simp [hblank]), if_neg (by simp [hdouble, hsingle]), hpunctuation]
    simp only [hdelimiter, Bool.false_eq_true, if_false]
    rw [List.takeWhile_append_of_pos hmore, List.dropWhile_append_of_pos hmore,
      List.takeWhile_cons_of_neg (by simp [hd]), List.dropWhile_cons_of_neg (by simp [hd]),
      List.append_nil]
  · exact hcomment
  · exact fun _ h => absurd h hreturn

theorem token?_quote (hrest : ∀ c ∈ rest.head?, c ≠ '"' ∧ c ≠ '\'') (cs : List Char) :
    token? (quote cs ++ rest) = some (some (quotedToken cs), rest) := by
  have h := readQuoted?_quote hrest cs
  obtain ⟨q, w, hw, rfl | rfl⟩ := exists_quote cs
  · rw [hw, List.cons_append] at h ⊢
    change (readQuoted? ('"' :: (w ++ rest))).map _ = _
    rw [h]
    rfl
  · rw [hw, List.cons_append] at h ⊢
    change (readQuoted? ('\'' :: (w ++ rest))).map _ = _
    rw [h]
    rfl

theorem tokens?_of_token? (h : token? cs = some (some t, rest)) :
    tokens? cs = (tokens? rest).map (t :: ·) := by
  have hne : cs ≠ [] := by
    rintro rfl
    cases h
  rw [tokens?, if_neg hne]
  split
  · next hnone => cases hnone.symm.trans h
  · next heq =>
    cases heq.symm.trans h
    rfl

/-! ## Reading on -/

/-- The state after the tokens of a text. -/
def State.read (s : State) (cs : List Char) : Option State := (tokens? cs).bind s.run

theorem State.read_nil (s : State) : s.read [] = some s := by
  rw [State.read, tokens?, if_pos rfl]
  rfl

theorem State.read_of_token? (h : token? cs = some (some t, rest)) (s : State) :
    s.read cs = (s.next t).bind (·.read rest) := by
  rw [State.read, tokens?_of_token? h, Option.bind_map]
  cases hts : tokens? rest with
  | none => simp [State.read, hts]
  | some ts => simp [State.read, hts, State.run]

/-- The text of a value: whatever line it ends, it puts the value there. -/
structure Writes (cs : List Char) (v : Value) : Prop where
  start (rest : List Char) : ∀ c ∈ (cs ++ '\n' :: rest).head?, isBlank c = false
  read (s : State) (path : List Key) (rest : List Char) :
    (s.goto (.value (.line path))).read (cs ++ '\n' :: rest) =
      (s.fill v (.line path)).bind (·.read ('\n' :: rest))

theorem quotedToken_eq (cs : List Char) :
    quotedToken cs = .quoted cs ∨ quotedToken cs = .block cs := by
  unfold quotedToken
  split <;> simp

theorem writes_quote (cs : List Char) : Writes (quote cs) (.text cs) where
  start rest := isBlank_of_mem_head?_quote cs _
  read s path rest := by
    rw [State.read_of_token? (token?_quote (by simp) cs)]
    rcases quotedToken_eq cs with h | h <;> (rw [h]; rfl)

theorem writes_numeralText (n : Nat) : Writes (numeralText n) (.integer (some (n : Int))) where
  start rest := by
    obtain ⟨c, w, hw⟩ := List.exists_cons_of_ne_nil (numeralText_ne_nil n)
    have hc : c.isDigit := isDigit_of_mem_numeralText (hw.symm ▸ List.Mem.head w)
    have hdelimiter := (ne_of_isKeyChar (isKeyChar_of_isDigit hc)).1
    rw [isDelimiter, Bool.or_eq_false_iff] at hdelimiter
    rw [hw]
    rintro d ⟨⟩
    exact hdelimiter.1
  read s path rest := by
    have hbare := token?_bare (d := '\n') (numeralText_ne_nil n)
      (fun c hc => isKeyChar_of_isDigit (isDigit_of_mem_numeralText hc)) rfl rest
    rw [State.read_of_token? hbare]
    change (s.goto (.bare (.line path) (numeralText n))).read ('\n' :: rest) = _
    rw [State.read_of_token? (token?_newline rest)]
    change (((Value.ofBare? (numeralText n)).bind fun v => s.fill v (.line path)).bind _).bind _ = _
    rw [ofBare?_numeralText, Option.bind_some, State.fill]
    cases s.root.alter (Entries.insert (.integer (some (n : Int))) path) s.header with
    | none => rfl
    | some root =>
      change _ = State.read ⟨root, s.header, .lineEnd⟩ ('\n' :: rest)
      rw [State.read_of_token? (token?_newline rest)]
      rfl

/-- An opening bracket starts an array. -/
theorem read_openBracket (s : State) (path : List Key) (rest : List Char) :
    (s.goto (.value (.line path))).read ('[' :: rest) =
      (s.goto (.item [] (.line path))).read rest :=
  State.read_of_token? (t := .openBracket) rfl _

theorem next_quotedToken (s : State) (done : List Value) (path : List Key) (cs : List Char) :
    (s.goto (.item done (.line path))).next (quotedToken cs) =
      some (s.goto (.afterItem (.text cs :: done) (.line path))) := by
  rcases quotedToken_eq cs with h | h <;> (rw [h]; rfl)

/-- An item of a list on a line of its own. -/
def itemLine (cs : List Char) : List Char := "    ".toList ++ quote cs ++ ",\n".toList

/-- The items of a list, one a line, are read one after the other. -/
theorem read_items (s : State) (path : List Key) (rest : List Char) (ts : List (List Char))
    (done : List Value) :
    (s.goto (.item done (.line path))).read (ts.flatMap itemLine ++ ']' :: rest) =
      (s.fill (.array (done.reverse ++ ts.map .text)) (.line path)).bind (·.read rest) := by
  induction ts generalizing done with
  | nil =>
    rw [List.flatMap_nil, List.nil_append, List.map_nil, List.append_nil]
    exact State.read_of_token? (t := .closeBracket) rfl _
  | cons t ts ih =>
    have hblank := token?_blanks 3 (isBlank_of_mem_head?_quote t
      (',' :: '\n' :: (ts.flatMap itemLine ++ ']' :: rest)))
    have hcomma : ∀ c ∈ (',' :: '\n' :: (ts.flatMap itemLine ++ ']' :: rest)).head?,
        c ≠ '"' ∧ c ≠ '\'' := by
      simp
    rw [List.flatMap_cons, itemLine]
    simp only [List.append_assoc]
    change State.read _ (List.replicate 4 ' ' ++ (quote t ++ ',' :: '\n' ::
      (ts.flatMap itemLine ++ ']' :: rest))) = _
    rw [State.read_of_token? hblank]
    change (s.goto (.item done (.line path))).read _ = _
    rw [State.read_of_token? (token?_quote hcomma t)]
    rw [next_quotedToken, Option.bind_some, State.read_of_token? (t := .comma) rfl]
    change (s.goto (.item (.text t :: done) (.line path))).read _ = _
    rw [State.read_of_token? (token?_newline _)]
    change (s.goto (.item (.text t :: done) (.line path))).read _ = _
    rw [ih, List.reverse_cons, List.append_assoc]
    rfl

theorem writes_textList (ts : List String) :
    Writes (textList ts) (.array (ts.map fun t => .text t.toList)) where
  start := by
    unfold textList
    split
    · exact fun _ c hc => Option.some.inj hc ▸ rfl
    · exact fun _ c hc => Option.some.inj hc ▸ rfl
    · exact fun _ c hc => Option.some.inj hc ▸ rfl
  read s path rest := by
    unfold textList
    split
    · change State.read _ ('[' :: ']' :: '\n' :: rest) = _
      rw [read_openBracket]
      exact State.read_of_token? (t := .closeBracket) rfl _
    · next t =>
      simp only [List.cons_append, List.append_assoc, List.nil_append]
      rw [read_openBracket, State.read_of_token? (token?_quote (by simp) t.toList),
        next_quotedToken, Option.bind_some]
      exact State.read_of_token? (t := .closeBracket) rfl _
    · have h := read_items s path ('\n' :: rest) (ts.map String.toList) []
      simp only [List.flatMap_map, List.map_map] at h
      simp only [List.append_assoc]
      change State.read _ ('[' :: '\n' :: (_ ++ ']' :: '\n' :: rest)) = _
      rw [read_openBracket, State.read_of_token? (token?_newline _)]
      exact h

/-! ## Lines and sections -/

/-- A line of a section. -/
structure Line where
  key : String
  text : List Char
  value : Value

/-- A line that is read as it was meant. -/
structure Line.Reads (l : Line) : Prop where
  key : l.key ≠ "" ∧ l.key.toList.all State.isKeyChar
  value : Writes l.text l.value

/-- A header in brackets and lines below it. -/
def sectionText (name : String) (lines : List Line) : List Char :=
  '[' :: (name.toList ++ "]\n".toList) ++ lines.flatMap fun l => assignment l.key l.text

theorem read_assignment {l : Line} (h : l.Reads) (root : Entries) (header : List Key)
    (rest : List Char) :
    (⟨root, header, .lineStart⟩ : State).read (assignment l.key l.text ++ rest) =
      (root.alter (Entries.insert l.value [l.key.toList]) header).bind fun root =>
        (⟨root, header, .lineStart⟩ : State).read rest := by
  have hne : l.key.toList ≠ [] := by simpa using h.key.1
  have hbare := token?_bare (d := ' ') hne (List.all_eq_true.1 h.key.2) rfl
    ('=' :: ' ' :: (l.text ++ '\n' :: rest))
  have hkey : State.key? (.bare l.key.toList) = some l.key.toList := if_pos h.key.2
  have hequals : ∀ c ∈ ('=' :: ' ' :: (l.text ++ '\n' :: rest)).head?, isBlank c = false :=
    fun c hc => Option.some.inj hc ▸ rfl
  have hvalue := token?_blanks 0 (h.value.start rest)
  let s : State := ⟨root, header, .lineStart⟩
  rw [assignment]
  simp only [List.append_assoc, List.cons_append, List.nil_append]
  rw [State.read_of_token? hbare]
  change (((State.key? _).map fun k => s.goto (.afterKey .line [k])).bind _) = _
  rw [hkey, Option.map_some, Option.bind_some]
  change (s.goto (.afterKey .line [l.key.toList])).read (List.replicate 1 ' ' ++ _) = _
  rw [State.read_of_token? (token?_blanks 0 hequals)]
  change (s.goto (.afterKey .line [l.key.toList])).read ('=' :: _) = _
  rw [State.read_of_token? (t := .equals) rfl]
  change (s.goto (.value (.line [l.key.toList]))).read
    (List.replicate 1 ' ' ++ (l.text ++ '\n' :: rest)) = _
  rw [State.read_of_token? hvalue]
  change (s.goto (.value (.line [l.key.toList]))).read _ = _
  rw [h.value.read, State.fill, Option.bind_map]
  refine Option.bind_congr fun root _ => ?_
  exact State.read_of_token? (token?_newline rest) _

theorem read_header {name : String} (h : name ≠ "" ∧ name.toList.all State.isKeyChar)
    (root : Entries) (header : List Key) (rest : List Char) :
    (⟨root, header, .lineStart⟩ : State).read ('[' :: (name.toList ++ ']' :: '\n' :: rest)) =
      (root.openTable name.toList).bind fun root =>
        (⟨root, [name.toList], .lineStart⟩ : State).read rest := by
  have hne : name.toList ≠ [] := by simpa using h.1
  have hbare := token?_bare (d := ']') hne (List.all_eq_true.1 h.2) rfl ('\n' :: rest)
  have hkey : State.key? (.bare name.toList) = some name.toList := if_pos h.2
  let s : State := ⟨root, header, .lineStart⟩
  rw [State.read_of_token? (t := .openBracket) rfl]
  change (s.goto .headerStart).read _ = _
  rw [State.read_of_token? hbare]
  change (((State.key? _).map fun k => s.goto (.afterKey .table [k])).bind _) = _
  rw [hkey, Option.map_some, Option.bind_some, State.read_of_token? (t := .closeBracket) rfl]
  change ((root.openTable name.toList).bind fun root =>
    some (⟨root, [name.toList], .lineEnd⟩ : State)).bind _ = _
  rw [Option.bind_assoc]
  refine Option.bind_congr fun root _ => ?_
  exact State.read_of_token? (token?_newline rest) _

/-! ## Tables -/

namespace Entries

variable {k : Key} {n m : Node} {t : Entries}

theorem find?_cons (e : Key × Node) (t : Entries) :
    find? k (e :: t) = if e.1 = k then some e.2 else t.find? k := by
  by_cases h : e.1 = k
  · rw [if_pos h, find?, List.lookup_cons, beq_iff_eq.2 h.symm]
  · rw [if_neg h, find?, List.lookup_cons, beq_false_of_ne (Ne.symm h), find?]

theorem put_of_find?_eq_none (h : t.find? k = none) : t.put k n = t ++ [(k, n)] := by
  induction t with
  | nil => rfl
  | cons e t ih =>
    rw [find?_cons] at h
    split_ifs at h with hk
    rw [put, if_neg hk, ih h]
    rfl

theorem put_append (h : t.find? k = none) : put k n (t ++ [(k, m)]) = t ++ [(k, n)] := by
  induction t with
  | nil => exact if_pos rfl
  | cons e t ih =>
    rw [find?_cons] at h
    split_ifs at h with hk
    rw [List.cons_append, put, if_neg hk, ih h]
    rfl

theorem find?_append (h : t.find? k = none) : find? k (t ++ [(k, n)]) = some n := by
  induction t with
  | nil => exact (find?_cons ..).trans (if_pos rfl)
  | cons e t ih =>
    rw [find?_cons] at h
    split_ifs at h with hk
    rw [List.cons_append, find?_cons, if_neg hk, ih h]

theorem find?_eq_none (h : k ∉ t.map Prod.fst) : t.find? k = none := by
  induction t with
  | nil => rfl
  | cons e t ih =>
    rw [List.map_cons, List.mem_cons, not_or] at h
    rw [find?_cons, if_neg (Ne.symm h.1), ih h.2]

end Entries

/-- The entries that lines add to the table of their header. -/
def lineEntries (lines : List Line) : Entries :=
  lines.map fun l => (l.key.toList, .value l.value)

/-- A line below the last header adds its value at the end of that table. -/
theorem alter_insert {root es : Entries} {name k : Key} (hroot : root.find? name = none)
    (hes : es.find? k = none) (v : Value) :
    Entries.alter (Entries.insert v [k]) [name] (root ++ [(name, Node.table .header es)]) =
      some (root ++ [(name, Node.table .header (es ++ [(k, .value v)]))]) := by
  rw [Entries.alter, Entries.find?_append hroot]
  simp only [Entries.alter, Entries.insert, hes, Option.map_some]
  rw [Entries.put_append hroot, Entries.put_of_find?_eq_none hes]

theorem read_lines {root : Entries} {name : Key} (hroot : root.find? name = none)
    (lines : List Line) (hreads : ∀ l ∈ lines, l.Reads) (es : Entries)
    (hnodup : (es.map Prod.fst ++ lines.map (·.key.toList)).Nodup) (rest : List Char) :
    (⟨root ++ [(name, .table .header es)], [name], .lineStart⟩ : State).read
        ((lines.flatMap fun l => assignment l.key l.text) ++ rest) =
      (⟨root ++ [(name, .table .header (es ++ lineEntries lines))], [name], .lineStart⟩ :
        State).read rest := by
  induction lines generalizing es with
  | nil => rw [lineEntries, List.map_nil, List.append_nil]; rfl
  | cons l lines ih =>
    have hl : l.key.toList ∉ es.map Prod.fst := fun h =>
      (List.nodup_append.1 hnodup).2.2 _ h _ (.head _) rfl
    rw [List.flatMap_cons, List.append_assoc, read_assignment (hreads l (.head _)),
      alter_insert hroot (Entries.find?_eq_none hl), Option.bind_some,
      ih (fun m hm => hreads m (.tail _ hm))]
    · simp only [lineEntries, List.append_assoc, List.map_cons]
      rfl
    · rw [List.map_append, List.append_assoc]
      exact hnodup

/-- A section becomes one more table. -/
theorem read_section {root : Entries} {name : String} {lines : List Line}
    (hname : name ≠ "" ∧ name.toList.all State.isKeyChar)
    (hroot : root.find? name.toList = none) (hreads : ∀ l ∈ lines, l.Reads)
    (hnodup : (lines.map (·.key.toList)).Nodup) (header : List Key) (rest : List Char) :
    (⟨root, header, .lineStart⟩ : State).read (sectionText name lines ++ rest) =
      (⟨root ++ [(name.toList, .table .header (lineEntries lines))], [name.toList], .lineStart⟩ :
        State).read rest := by
  rw [sectionText]
  simp only [List.cons_append, List.append_assoc]
  change State.read _ ('[' :: (name.toList ++ ']' :: '\n' :: _)) = _
  rw [read_header hname, Entries.openTable, hroot, Option.bind_some,
    Entries.put_of_find?_eq_none hroot]
  exact read_lines hroot lines hreads [] hnodup rest

/-- An empty line adds nothing. -/
theorem read_newline (root : Entries) (header : List Key) (rest : List Char) :
    (⟨root, header, .lineStart⟩ : State).read ('\n' :: rest) =
      (⟨root, header, .lineStart⟩ : State).read rest :=
  State.read_of_token? (token?_newline rest) _

theorem read?_of_ne (h : c ≠ '\ufeff') (cs : List Char) :
    Document.read? (c :: cs) = (State.start.read (c :: cs)).bind State.finish? := by
  unfold Document.read?
  split
  · next heq => exact absurd (List.cons.inj heq).1 h
  · rw [State.read, Option.bind_assoc]
    rfl

end PublishDesk.Toml
