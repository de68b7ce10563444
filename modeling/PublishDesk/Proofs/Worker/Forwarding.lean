import PublishDesk.Proofs.Text.Utf8
import PublishDesk.Worker.Scripted

/-!
# Lines that are passed on

The output of a worker arrives in reads that are cut anywhere, and its lines are passed on one after
the other as they are complete (`Pipe.forward`). The cuts make no difference (`Pipe.forward_eq`):
what is passed on are the first lines of the output, up to one that is not UTF-8. That line is not
passed on, and neither is any line behind it; so all lines that are UTF-8 are passed on only if none
of them stands behind one that is not (`ScriptedWorker.play_forwards`).
-/

namespace PublishDesk.Worker
open Text

/-! ## Line by line -/

/-- All the bytes that reads deliver. A read that is empty is the end of the output. -/
def delivered : List (List UInt8) → List UInt8
  | [] | [] :: _ => []
  | (b :: read) :: reads => b :: read ++ delivered reads

/-- An output that is being read: the bytes that are held, and the reads to come. -/
structure Pipe where
  held : List UInt8 := []
  reads : List (List UInt8)

/-- What asking for the next line comes to. -/
inductive NextLine where
  | line (text : List Char)
  /-- The line is not UTF-8. -/
  | undecodable
  | ended

/-- What a line comes to. -/
def NextLine.ofBytes (l : List UInt8) : NextLine :=
  match Utf8.decode? l with
  | some text => .line text
  | none => .undecodable

namespace Pipe

/-- The bytes that have not been taken. -/
def remaining (p : Pipe) : List UInt8 := p.held ++ delivered p.reads

/-- Take the bytes up to a line feed, or up to the end of the output. -/
def takeLine (held : List UInt8) (reads : List (List UInt8)) : List UInt8 × Pipe :=
  if 0x0a ∈ held then
    (held.takeWhile (· != 0x0a) ++ [0x0a], ⟨(held.dropWhile (· != 0x0a)).tail, reads⟩)
  else match reads with
    | [] | [] :: _ => (held, ⟨[], []⟩)
    | (b :: read) :: reads =>
      let (l, p) := takeLine (b :: read) reads
      (held ++ l, p)
termination_by reads.length

/-- The content of a line that has been taken, without its line end. -/
def content (l : List UInt8) : List UInt8 :=
  if l.getLast? = some 0x0a then dropFinal 0x0d l.dropLast else l

/-- Take the next line. -/
def nextLine (p : Pipe) : NextLine × Pipe :=
  let (l, q) := takeLine p.held p.reads
  if l = [] then (.ended, q) else (.ofBytes (content l), q)

/-- A line that has been taken: it ends with its line feed, or it is the last one. -/
inductive Taken (p : Pipe) : List UInt8 × Pipe → Prop where
  | line {l : List UInt8} {q : Pipe} (hl : 0x0a ∉ l)
      (hp : p.remaining = l ++ 0x0a :: q.remaining) : Taken p (l ++ [0x0a], q)
  | last {l : List UInt8} (hl : 0x0a ∉ l) (hp : p.remaining = l) : Taken p (l, ⟨[], []⟩)

theorem taken_of_mem {held : List UInt8} (h : 0x0a ∈ held) (reads : List (List UInt8)) :
    Taken ⟨held, reads⟩ (takeLine held reads) := by
  obtain ⟨l, rest, rfl, hl⟩ := List.eq_append_cons_of_mem h
  have hne : ∀ b ∈ l, (b != 0x0a) = true := fun b hb => bne_iff_ne.2 (ne_of_mem_of_not_mem hb hl)
  have hline : takeLine (l ++ 0x0a :: rest) reads = (l ++ [0x0a], ⟨rest, reads⟩) := by
    rw [takeLine.eq_def, if_pos h, List.takeWhile_append_of_pos hne,
      List.dropWhile_append_of_pos hne]
    simp
  rw [hline]
  exact .line hl (List.append_assoc ..)

/-- A line that is not complete goes on in the next read. -/
theorem Taken.prepend {held : List UInt8} (h : 0x0a ∉ held) {b : UInt8} {read : List UInt8}
    {reads : List (List UInt8)} {r : List UInt8 × Pipe} (H : Taken ⟨b :: read, reads⟩ r) :
    Taken ⟨held, (b :: read) :: reads⟩ (held ++ r.1, r.2) := by
  have hp : remaining ⟨held, (b :: read) :: reads⟩ = held ++ remaining ⟨b :: read, reads⟩ := rfl
  cases H with
  | @line l q hl hq =>
    rw [← List.append_assoc]
    refine .line (List.not_mem_append h hl) ?_
    rw [hp, hq, List.append_assoc]
  | last hl hq => exact .last (List.not_mem_append h hl) (by rw [hp, hq])

theorem taken (held : List UInt8) (reads : List (List UInt8)) :
    Taken ⟨held, reads⟩ (takeLine held reads) := by
  induction held, reads using takeLine.induct with
  | case1 held reads h => exact taken_of_mem h reads
  | case2 held h =>
    rw [takeLine, if_neg h]
    exact .last h (List.append_nil held)
  | case3 held h reads =>
    rw [takeLine, if_neg h]
    exact .last h (List.append_nil held)
  | case4 held h b read reads l p hr ih =>
    rw [takeLine, if_neg h]
    exact ih.prepend h

theorem content_line (l : List UInt8) : content (l ++ [0x0a]) = dropFinal 0x0d l := by
  rw [content, List.getLast?_concat, if_pos rfl, List.dropLast_concat]

theorem content_last {l : List UInt8} (h : 0x0a ∉ l) : content l = l :=
  if_neg fun hlast => h (List.mem_of_getLast? hlast)

/-- Either there are no more lines, or the first of them is taken. -/
theorem nextLine_cases (p : Pipe) :
    (byteLines p.remaining = [] ∧ ∃ q, p.nextLine = (.ended, q)) ∨
    ∃ l q, byteLines p.remaining = l :: byteLines q.remaining ∧
      q.remaining.length < p.remaining.length ∧ p.nextLine = (.ofBytes l, q) := by
  have H : Taken p (takeLine p.held p.reads) := taken p.held p.reads
  rw [nextLine]
  generalize takeLine p.held p.reads = r at H
  cases H with
  | @line l q hl hp =>
    refine .inr ⟨dropFinal 0x0d l, q, ?_, ?_, ?_⟩
    · rw [hp]
      exact linesWith_cons hl q.remaining
    · rw [hp, List.length_append, List.length_cons]
      omega
    · dsimp only
      rw [if_neg (List.concat_ne_nil _ _), content_line]
  | last hl hp =>
    subst hp
    by_cases h : p.remaining = []
    · exact .inl ⟨h ▸ rfl, _, if_pos h⟩
    · refine .inr ⟨_, ⟨[], []⟩, linesWith_of_not_mem hl h, List.length_pos_iff.2 h, ?_⟩
      dsimp only
      rw [if_neg h, content_last hl]

theorem of_nextLine_line {p q : Pipe} {text : List Char} (h : p.nextLine = (.line text, q)) :
    ∃ l, byteLines p.remaining = l :: byteLines q.remaining ∧ Utf8.decode? l = some text ∧
      q.remaining.length < p.remaining.length := by
  obtain ⟨-, q', hq⟩ | ⟨l, q', hl, hlt, hq⟩ := p.nextLine_cases
  · cases hq.symm.trans h
  · obtain ⟨htext, rfl⟩ := Prod.mk.inj (hq.symm.trans h)
    refine ⟨l, hl, ?_, hlt⟩
    rw [NextLine.ofBytes] at htext
    split at htext
    · next hdecode =>
      cases htext
      exact hdecode
    · cases htext

theorem of_nextLine_undecodable {p q : Pipe} (h : p.nextLine = (.undecodable, q)) :
    ∃ l, byteLines p.remaining = l :: byteLines q.remaining ∧ Utf8.decode? l = none := by
  obtain ⟨-, q', hq⟩ | ⟨l, q', hl, -, hq⟩ := p.nextLine_cases
  · cases hq.symm.trans h
  · obtain ⟨hnone, rfl⟩ := Prod.mk.inj (hq.symm.trans h)
    refine ⟨l, hl, ?_⟩
    rw [NextLine.ofBytes] at hnone
    split at hnone
    · cases hnone
    · assumption

theorem of_nextLine_ended {p q : Pipe} (h : p.nextLine = (.ended, q)) :
    byteLines p.remaining = [] := by
  obtain ⟨hnil, -⟩ | ⟨l, q', -, -, hq⟩ := p.nextLine_cases
  · exact hnil
  · obtain ⟨hended, -⟩ := Prod.mk.inj (hq.symm.trans h)
    rw [NextLine.ofBytes] at hended
    split at hended <;> cases hended

/-- Pass lines on, until the output has ended or a line cannot be read. -/
def forward (p : Pipe) : List (List Char) :=
  match _h : p.nextLine with
  | (.line text, q) => text :: q.forward
  | (.undecodable, _) => []
  | (.ended, _) => []
termination_by p.remaining.length
decreasing_by exact (of_nextLine_line _h).choose_spec.2.2

end Pipe

/-! ## Lines that are UTF-8 -/

/-- The texts of the lines up to one that is not UTF-8. -/
def leadingTexts : List (List UInt8) → List (List Char)
  | [] => []
  | l :: ls => match Utf8.decode? l with
    | some text => text :: leadingTexts ls
    | none => []

theorem leadingTexts_cons {l : List UInt8} {text : List Char} (h : Utf8.decode? l = some text)
    (ls : List (List UInt8)) : leadingTexts (l :: ls) = text :: leadingTexts ls := by
  rw [leadingTexts, h]

theorem leadingTexts_of_none {l : List UInt8} (h : Utf8.decode? l = none)
    (ls : List (List UInt8)) : leadingTexts (l :: ls) = [] := by
  rw [leadingTexts, h]

theorem forwardedLines_eq (output : List UInt8) :
    forwardedLines output = leadingTexts (byteLines output) := by
  rw [forwardedLines]
  induction byteLines output with
  | nil => rfl
  | cons l ls ih =>
    rw [List.map_cons, leadingTexts]
    cases Utf8.decode? l with
    | none => rfl
    | some text => exact congrArg (text :: ·) ih

namespace Pipe

variable {p q : Pipe} {text : List Char}

theorem forward_of_line (h : p.nextLine = (.line text, q)) : p.forward = text :: q.forward := by
  rw [forward.eq_def]
  split <;> simp_all

theorem forward_of_undecodable (h : p.nextLine = (.undecodable, q)) : p.forward = [] := by
  rw [forward.eq_def]
  split <;> simp_all

theorem forward_of_ended (h : p.nextLine = (.ended, q)) : p.forward = [] := by
  rw [forward.eq_def]
  split <;> simp_all

/-- Where an output is cut into reads makes no difference. -/
theorem forward_eq (p : Pipe) : p.forward = forwardedLines p.remaining := by
  rw [forwardedLines_eq]
  induction p using forward.induct with
  | case1 p text q h ih =>
    obtain ⟨l, hl, htext, -⟩ := of_nextLine_line h
    rw [hl, leadingTexts_cons htext, ← ih, forward_of_line h]
  | case2 p q h =>
    obtain ⟨l, hl, hnone⟩ := of_nextLine_undecodable h
    rw [hl, leadingTexts_of_none hnone, forward_of_undecodable h]
  | case3 p q h => rw [of_nextLine_ended h, leadingTexts, forward_of_ended h]

end Pipe

theorem exists_leadingTexts (ls : List (List UInt8)) :
    ∃ rest, ls = (leadingTexts ls).map Utf8.encode ++ rest ∧
      ∀ l ∈ rest.head?, ¬ Utf8.IsUtf8 l := by
  induction ls with
  | nil => exact ⟨[], rfl, nofun⟩
  | cons l ls ih =>
    cases h : Utf8.decode? l with
    | some text =>
      obtain ⟨rest, hls, hrest⟩ := ih
      refine ⟨rest, ?_, hrest⟩
      rw [leadingTexts_cons h, List.map_cons, List.cons_append, ← hls,
        ← Utf8.decode?_eq_some_iff.1 h]
    | none =>
      rw [leadingTexts_of_none h]
      refine ⟨l :: ls, rfl, fun m hm => ?_⟩
      obtain rfl := Option.some.inj hm
      exact Utf8.decode?_eq_none_iff.1 h

/-- The texts of all the lines that are UTF-8 are those of the first lines only if none of the
lines stands behind one that is not. -/
theorem leadingTexts_eq_filterMap_iff (ls : List (List UInt8)) :
    leadingTexts ls = ls.filterMap Utf8.decode? ↔
      ls.Pairwise fun l m => Utf8.IsUtf8 m → Utf8.IsUtf8 l := by
  induction ls with
  | nil => exact iff_of_true rfl .nil
  | cons l ls ih =>
    cases h : Utf8.decode? l with
    | some text =>
      have hl : Utf8.IsUtf8 l := ⟨text, Utf8.decode?_eq_some_iff.1 h⟩
      rw [leadingTexts_cons h, List.filterMap_cons_some h, List.cons_inj_right, ih,
        List.pairwise_cons, and_iff_right fun m _ _ => hl]
    | none =>
      have hl : ¬ Utf8.IsUtf8 l := Utf8.decode?_eq_none_iff.1 h
      rw [leadingTexts_of_none h, List.filterMap_cons_none h, eq_comm, List.filterMap_eq_nil_iff,
        List.pairwise_cons]
      simp only [hl, imp_false, Utf8.decode?_eq_none_iff]
      refine (and_iff_left_of_imp fun hls => ?_).symm
      exact List.pairwise_of_forall_mem_list fun _ _ m hm hutf => absurd hutf (hls m hm)

/-- What is told of an output that arrives in reads: the texts of its lines, in order. -/
structure Forwards (reads : List (List UInt8)) (told : List (List Char)) : Prop where
  line_by_line : Pipe.forward { reads := reads } = told
  /-- Each line that is passed on is passed on once and as it is, up to one that is not UTF-8. -/
  first_lines : ∃ rest, byteLines (delivered reads) = told.map Utf8.encode ++ rest ∧
    ∀ l ∈ rest.head?, ¬ Utf8.IsUtf8 l
  /-- All lines that are UTF-8 are passed on exactly if none of them stands behind one that is
  not. -/
  complete_iff : told = (byteLines (delivered reads)).filterMap Utf8.decode? ↔
    (byteLines (delivered reads)).Pairwise fun l m => Utf8.IsUtf8 m → Utf8.IsUtf8 l

theorem forwards {reads : List (List UInt8)} {output : List UInt8}
    (h : delivered reads = output) : Forwards reads (forwardedLines output) := by
  subst h
  rw [forwardedLines_eq]
  refine ⟨?_, exists_leadingTexts _, leadingTexts_eq_filterMap_iff _⟩
  rw [Pipe.forward_eq, forwardedLines_eq]
  rfl

end PublishDesk.Worker

namespace PublishDesk.ScriptedWorker
open Worker

/-- A worker that runs has the lines of its output and of its errors passed on, wherever these are
cut into reads. -/
theorem play_forwards {w : ScriptedWorker} {pid : Nat} {run : Finished} {runs : List Finished}
    (hphase : w.supervisor.phase = .spawned pid) (hruns : w.runs = run :: runs)
    {outputReads errorReads : List (List UInt8)} (houtput : delivered outputReads = run.output)
    (herrors : delivered errorReads = run.errors) :
    ∃ output errors, w.play.output = w.output ++ output ∧ Forwards outputReads output ∧
      w.play.errors = w.errors ++ errors ∧ Forwards errorReads errors := by
  have hplay : w.play.output = w.output ++ forwardedLines run.output ∧
      w.play.errors = w.errors ++ forwardedLines run.errors := by
    rw [play, hphase, hruns]
    exact ⟨rfl, rfl⟩
  exact ⟨_, _, hplay.1, forwards houtput, hplay.2, forwards herrors⟩

/-- What a worker writes that puts a line that is not UTF-8 between two lines that are. -/
def mixedOutput : List UInt8 :=
  Text.Utf8.encode "ok\n".toList ++ [0xff, 0x0a] ++ Text.Utf8.encode "late\n".toList

def mixedWorker : ScriptedWorker where
  supervisor :=
    { command := ["site"], directory := "/desk".toList, started := true, spawns := 1,
      phase := .spawned 1, child := some { pid := 1 } }
  environment := { isDirectory := fun _ => true, isProgram := fun _ => true }
  runs := [{ output := mixedOutput }]

theorem byteLines_mixedOutput :
    Text.byteLines mixedOutput =
      [Text.Utf8.encode "ok".toList, [0xff], Text.Utf8.encode "late".toList] := by
  rfl

theorem decode?_stray : Text.Utf8.decode? [0xff] = none := by
  have hstep : Text.Utf8.step 0xff [] = (none, []) := rfl
  rw [Text.Utf8.decode?, Text.Utf8.units, hstep]
  rfl

/-- The last line is lost, although it is UTF-8. -/
theorem play_forwards_mixed :
    (∃ output errors, mixedWorker.play.output = mixedWorker.output ++ output ∧
      Forwards [[0x6f, 0x6b, 0x0a, 0xff], [0x0a, 0x6c, 0x61, 0x74, 0x65, 0x0a]] output ∧
      mixedWorker.play.errors = mixedWorker.errors ++ errors ∧ Forwards [] errors) ∧
    mixedWorker.play.output = ["ok".toList] ∧
    (Text.byteLines mixedOutput).filterMap Text.Utf8.decode? = ["ok".toList, "late".toList] := by
  refine ⟨play_forwards rfl rfl rfl rfl, ?_, ?_⟩
  · have hplay : mixedWorker.play.output = [] ++ forwardedLines mixedOutput := rfl
    rw [hplay, List.nil_append, forwardedLines_eq, byteLines_mixedOutput,
      leadingTexts_cons (Text.Utf8.decode?_encode _), leadingTexts_of_none decode?_stray]
  · rw [byteLines_mixedOutput, List.filterMap_cons_some (Text.Utf8.decode?_encode _),
      List.filterMap_cons_none decode?_stray,
      List.filterMap_cons_some (Text.Utf8.decode?_encode _), List.filterMap_nil]

end PublishDesk.ScriptedWorker
