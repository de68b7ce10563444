import PublishDesk.Proofs.EventStream.Chunks

/-!
# The blocks of an event stream

A decoder reads one line after the other and keeps what it needs of the block that is not complete
yet. What it returns in all can be said of the bytes as a whole (`eventsOf`): their complete lines
are cut into blocks at the empty ones, and each complete block with data is an event. The two agree
however the bytes arrive (`Decoder.pushAll_eventsOf`).
-/

namespace PublishDesk.EventStream
open Text

/-! ## Lines and blocks -/

/-- The name of the field in a line: the text before the first colon, or the whole line. -/
def fieldName (line : List Char) : List Char := line.take (line.idxOf ':')

/-- The value of the field in a line: the text behind the first colon, without one space at its
beginning. -/
def fieldValue (line : List Char) : List Char :=
  let rest := line.drop (line.idxOf ':' + 1)
  if rest.head? = some ' ' then rest.tail else rest

/-- The values that the lines of a block give to a field. -/
def valuesFor (name : List Char) (block : List (List Char)) : List (List Char) :=
  (block.filter fun l => fieldName l = name).map fieldValue

/-- The name that a block gives itself; the last one counts. -/
def blockName (block : List (List Char)) : Option (List Char) :=
  (valuesFor "event".toList block).getLast?

def blockData (block : List (List Char)) : List (List Char) := valuesFor "data".toList block

/-- The event of a complete block; a block without data has none. -/
def blockEvent? (block : List (List Char)) : Option Event :=
  if blockData block = [] then none
  else some ⟨(blockName block).getD defaultName, joinWith ['\n'] (blockData block)⟩

/-- The blocks that end with an empty line. -/
def completeBlocks (lines : List (List Char)) : List (List (List Char)) :=
  (splitOn [] lines).dropLast

theorem fieldName_cons {c : Char} (h : c ≠ ':') (line : List Char) :
    fieldName (c :: line) = c :: fieldName line := by
  rw [fieldName, List.idxOf_cons, beq_false_of_ne h, cond_false, List.take_succ_cons, fieldName]

theorem fieldValue_cons {c : Char} (h : c ≠ ':') (line : List Char) :
    fieldValue (c :: line) = fieldValue line := by
  rw [fieldValue, List.idxOf_cons, beq_false_of_ne h, cond_false, List.drop_succ_cons, fieldValue]

/-- A comment is a field without a name. -/
theorem fieldName_comment (line : List Char) : fieldName (':' :: line) = [] := by
  rw [fieldName, List.idxOf_cons_self, List.take_zero]

theorem field_eq (line : List Char) : field line = (fieldName line, fieldValue line) := by
  induction line with
  | nil => rfl
  | cons c line ih =>
    by_cases hc : c = ':'
    · subst hc
      cases line with
      | nil => rfl
      | cons d line =>
        by_cases hd : d = ' '
        · subst hd
          rfl
        · simp [field, fieldName, fieldValue, hd]
    · have hcons : field (c :: line) = (c :: (field line).1, (field line).2) := by
        simp [field, hc]
      rw [hcons, ih, fieldName_cons hc, fieldValue_cons hc]

theorem valuesFor_concat (name : List Char) (block : List (List Char)) (l : List Char) :
    valuesFor name (block ++ [l]) =
      if fieldName l = name then valuesFor name block ++ [fieldValue l]
      else valuesFor name block := by
  rw [valuesFor, List.filter_append, List.map_append, ← valuesFor]
  split
  · next h => simp [h]
  · next h => simp [h]

theorem blockName_concat (block : List (List Char)) (l : List Char) :
    blockName (block ++ [l]) =
      if fieldName l = "event".toList then some (fieldValue l) else blockName block := by
  rw [blockName, valuesFor_concat]
  split
  · exact List.getLast?_concat
  · rfl

theorem blockData_concat (block : List (List Char)) (l : List Char) :
    blockData (block ++ [l]) =
      if fieldName l = "data".toList then blockData block ++ [fieldValue l] else blockData block :=
  valuesFor_concat ..

theorem completeBlocks_open {block : List (List Char)} (h : [] ∉ block) :
    completeBlocks block = [] := by
  rw [completeBlocks, splitOn_of_not_mem h, List.dropLast_singleton]

theorem completeBlocks_cons {block : List (List Char)} (h : [] ∉ block) (lines : List (List Char)) :
    completeBlocks (block ++ [] :: lines) = block :: completeBlocks lines := by
  rw [completeBlocks, splitOn_cons h, List.dropLast_cons_of_ne_nil (splitOn_ne_nil _ _),
    completeBlocks]

/-! ## The decoder -/

namespace Decoder

/-- The decoder has read the lines of a block that is not complete yet. -/
structure Reads (block : List (List Char)) (d : Decoder) : Prop where
  nonempty : [] ∉ block
  name : d.name = blockName block
  data : d.data = blockData block

variable {d : Decoder} {block : List (List Char)}

theorem Reads.empty_line (H : Reads block d) :
    (d.line []).2 = blockEvent? block ∧ Reads [] (d.line []).1 := by
  rw [line, if_pos (by rfl), H.data, H.name, blockEvent?]
  by_cases hdata : blockData block = []
  · rw [hdata, if_pos rfl]
    exact ⟨rfl, List.not_mem_nil, rfl, rfl⟩
  · rw [if_neg hdata, if_neg (by simpa using hdata)]
    exact ⟨rfl, List.not_mem_nil, rfl, rfl⟩

theorem Reads.line (H : Reads block d) {l : List Char} (hl : l ≠ []) :
    (d.line l).2 = none ∧ Reads (block ++ [l]) (d.line l).1 := by
  have hnonempty : [] ∉ block ++ [l] := by
    rw [List.mem_append, List.mem_singleton]
    exact not_or.2 ⟨H.nonempty, Ne.symm hl⟩
  have hempty : ¬ l.isEmpty := by rwa [List.isEmpty_iff]
  have hname := blockName_concat block l
  have hdata := blockData_concat block l
  rw [Decoder.line, if_neg hempty, field_eq]
  by_cases hcomment : l.head? = some ':'
  · obtain ⟨rest, rfl⟩ := List.head?_eq_some_iff.1 hcomment
    rw [fieldName_comment, if_neg (by decide)] at hname hdata
    rw [if_pos hcomment]
    exact ⟨rfl, hnonempty, H.name.trans hname.symm, H.data.trans hdata.symm⟩
  rw [if_neg hcomment]
  dsimp only
  by_cases hevent : fieldName l = "event".toList
  · rw [if_pos hevent] at hname ⊢
    rw [hevent, if_neg (by decide)] at hdata
    exact ⟨rfl, hnonempty, hname.symm, H.data.trans hdata.symm⟩
  rw [if_neg hevent] at hname ⊢
  by_cases hfield : fieldName l = "data".toList
  · rw [if_pos hfield] at hdata ⊢
    exact ⟨rfl, hnonempty, H.name.trans hname.symm, hdata ▸ congrArg (· ++ _) H.data⟩
  · rw [if_neg hfield] at hdata ⊢
    exact ⟨rfl, hnonempty, H.name.trans hname.symm, H.data.trans hdata.symm⟩

theorem Reads.lines (H : Reads block d) (ls : List (List UInt8)) :
    (d.lines ls).2 = (completeBlocks (block ++ ls.map lineText)).filterMap blockEvent? := by
  induction ls generalizing d block with
  | nil => rw [List.map_nil, List.append_nil, completeBlocks_open H.nonempty]; rfl
  | cons l ls ih =>
    rw [Decoder.lines, List.map_cons]
    by_cases hl : lineText l = []
    · obtain ⟨hevent, H'⟩ := H.empty_line
      rw [hl, hevent, ih H', completeBlocks_cons H.nonempty, List.nil_append]
      cases he : blockEvent? block with
      | none => rw [List.filterMap_cons_none he]; rfl
      | some e => rw [List.filterMap_cons_some he]; rfl
    · obtain ⟨hevent, H'⟩ := H.line hl
      rw [hevent, ih H', List.append_assoc, List.singleton_append]
      rfl

end Decoder
end PublishDesk.EventStream
