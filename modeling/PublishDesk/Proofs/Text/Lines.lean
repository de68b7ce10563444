import PublishDesk.Text.Lines

/-!
# Lists as terminated lines

Every list is a sequence of lines, each followed by the separator, and a tail without one
(`exists_terminated`); and `splitOn` finds just these parts (`splitOn_terminated`,
`terminated_splitOn`). The lines of a text that ends with a line end are these parts, too
(`linesWith_terminated`). Lines may also be taken off a text one by one (`linesWith_cons`).
-/

namespace PublishDesk.Text

variable {α : Type}

/-- The lines, each followed by the separator. -/
def terminated (sep : α) (ls : List (List α)) : List α := ls.flatMap (· ++ [sep])

theorem terminated_cons (sep : α) (l : List α) (ls : List (List α)) :
    terminated sep (l :: ls) = l ++ sep :: terminated sep ls := by
  rw [terminated, List.flatMap_cons, List.append_assoc, List.singleton_append, terminated]

theorem terminated_append (sep : α) (ls ms : List (List α)) :
    terminated sep (ls ++ ms) = terminated sep ls ++ terminated sep ms :=
  List.flatMap_append

theorem mem_terminated {sep a : α} {ls : List (List α)} (h : a ∈ terminated sep ls) :
    a = sep ∨ ∃ l ∈ ls, a ∈ l := by
  obtain ⟨l, hl, ha⟩ := List.mem_flatMap.1 h
  rcases List.mem_append.1 ha with ha | ha
  · exact .inr ⟨l, hl, ha⟩
  · exact .inl (List.mem_singleton.1 ha)

theorem joinWith_concat (sep : α) (ls : List (List α)) (tail : List α) :
    joinWith [sep] (ls ++ [tail]) = terminated sep ls ++ tail := by
  induction ls with
  | nil => rfl
  | cons l ls ih =>
    rw [terminated_cons, List.append_assoc, List.cons_append, List.cons_append, ← ih]
    cases ls <;> simp [joinWith]

variable [DecidableEq α]

theorem splitOn_of_not_mem {sep : α} {l : List α} (h : sep ∉ l) : splitOn sep l = [l] := by
  induction l with
  | nil => rfl
  | cons c l ih =>
    obtain ⟨hc, hl⟩ := not_or.1 (mt List.mem_cons.2 h)
    rw [splitOn, if_neg (Ne.symm hc), ih hl]

theorem splitOn_cons {sep : α} {l : List α} (h : sep ∉ l) (rest : List α) :
    splitOn sep (l ++ sep :: rest) = l :: splitOn sep rest := by
  induction l with
  | nil => rw [List.nil_append, splitOn, if_pos rfl]
  | cons c l ih =>
    obtain ⟨hc, hl⟩ := not_or.1 (mt List.mem_cons.2 h)
    rw [List.cons_append, splitOn, if_neg (Ne.symm hc), ih hl]

theorem splitOn_terminated {sep : α} {ls : List (List α)} {tail : List α}
    (hls : ∀ l ∈ ls, sep ∉ l) (htail : sep ∉ tail) :
    splitOn sep (terminated sep ls ++ tail) = ls ++ [tail] := by
  induction ls with
  | nil => exact splitOn_of_not_mem htail
  | cons l ls ih =>
    obtain ⟨hl, hls⟩ := List.forall_mem_cons.1 hls
    rw [terminated_cons, List.append_assoc, List.cons_append, splitOn_cons hl, ih hls,
      List.cons_append]

theorem linesWith_terminated {lf : α} {ls : List (List α)} (hls : ∀ l ∈ ls, lf ∉ l) (cr : α) :
    linesWith cr lf (terminated lf ls) = ls.map (dropFinal cr) := by
  have hparts : splitOn lf (terminated lf ls) = ls ++ [[]] := by
    rw [← splitOn_terminated hls List.not_mem_nil, List.append_nil]
  simp only [linesWith, hparts, List.dropLast_concat, List.getLast?_concat]
  exact List.append_nil _

theorem linesWith_cons {cr lf : α} {l : List α} (h : lf ∉ l) (rest : List α) :
    linesWith cr lf (l ++ lf :: rest) = dropFinal cr l :: linesWith cr lf rest := by
  have hne := splitOn_ne_nil lf rest
  simp only [linesWith, splitOn_cons h, List.dropLast_cons_of_ne_nil hne,
    List.getLast?_cons_of_ne_nil hne, List.map_cons, List.cons_append]

theorem linesWith_of_not_mem {cr lf : α} {l : List α} (h : lf ∉ l) (hne : l ≠ []) :
    linesWith cr lf l = [l] := by
  simp [linesWith, splitOn_of_not_mem h, hne]

theorem exists_terminated (sep : α) (xs : List α) :
    ∃ ls tail, (∀ l ∈ ls, sep ∉ l) ∧ sep ∉ tail ∧ xs = terminated sep ls ++ tail := by
  induction xs with
  | nil => exact ⟨[], [], nofun, List.not_mem_nil, rfl⟩
  | cons x xs ih =>
    obtain ⟨ls, tail, hls, htail, rfl⟩ := ih
    by_cases hx : x = sep
    · subst hx
      exact ⟨[] :: ls, tail, List.forall_mem_cons.2 ⟨List.not_mem_nil, hls⟩, htail, rfl⟩
    · cases ls with
      | nil =>
        exact ⟨[], x :: tail, nofun, List.not_mem_cons_of_ne_of_not_mem (Ne.symm hx) htail, rfl⟩
      | cons l ls =>
        obtain ⟨hl, hls⟩ := List.forall_mem_cons.1 hls
        have hxl := List.not_mem_cons_of_ne_of_not_mem (Ne.symm hx) hl
        refine ⟨(x :: l) :: ls, tail, List.forall_mem_cons.2 ⟨hxl, hls⟩, htail, ?_⟩
        rw [terminated_cons, terminated_cons]
        rfl

theorem terminated_splitOn (sep : α) (xs : List α) :
    terminated sep (splitOn sep xs) = xs ++ [sep] := by
  obtain ⟨ls, tail, hls, htail, rfl⟩ := exists_terminated sep xs
  rw [splitOn_terminated hls htail, terminated_append, List.append_assoc]
  simp [terminated]

theorem not_mem_of_mem_splitOn {sep : α} {l xs : List α} (h : l ∈ splitOn sep xs) : sep ∉ l := by
  obtain ⟨ls, tail, hls, htail, rfl⟩ := exists_terminated sep xs
  rw [splitOn_terminated hls htail] at h
  rcases List.mem_append.1 h with h | h
  · exact hls l h
  · exact List.mem_singleton.1 h ▸ htail

theorem mem_of_mem_splitOn {sep a : α} {l xs : List α} (h : l ∈ splitOn sep xs) (ha : a ∈ l) :
    a ∈ xs := by
  obtain ⟨ls, tail, hls, htail, rfl⟩ := exists_terminated sep xs
  rw [splitOn_terminated hls htail] at h
  rcases List.mem_append.1 h with h | h
  · exact List.mem_append_left _ (List.mem_flatMap.2 ⟨l, h, List.mem_append_left _ ha⟩)
  · exact List.mem_append_right _ (List.mem_singleton.1 h ▸ ha)

/-- Where a text starts with lines, these are its first lines. -/
theorem exists_of_terminated_isPrefix {sep : α} {ks ls : List (List α)} {tail : List α}
    (hks : ∀ l ∈ ks, sep ∉ l) (hls : ∀ l ∈ ls, sep ∉ l) (htail : sep ∉ tail)
    (h : terminated sep ks <+: terminated sep ls ++ tail) : ∃ ms, ls = ks ++ ms := by
  obtain ⟨rest, hrest⟩ := h
  obtain ⟨ms, last, hms, hlast, rfl⟩ := exists_terminated sep rest
  have hparts := congrArg (splitOn sep) hrest
  rw [← List.append_assoc, ← terminated_append, splitOn_terminated hls htail,
    splitOn_terminated (List.forall_mem_append.2 ⟨hks, hms⟩) hlast] at hparts
  exact ⟨ms, (List.append_inj_left' hparts rfl).symm⟩

end PublishDesk.Text
