import PublishDesk.Proofs.FileSystem.Route

/-!
# Last names

The route of a path ends with its last segment that is not empty (`getLast?_names`). That is the
file name of the path, unless it is one of the names that every directory has
(`fileName?_of_lastSegment?`). A file name that is given an extension has its old name as its stem
(`stem_append`).
-/

namespace PublishDesk
open Text

variable {root p : Path} {l s t : List Char} {ls es : List (List Char)} {r : Route} {n : FileName}

/-- The last segment of a path that is not empty. -/
def Path.lastSegment? (p : Path) : Option (List Char) :=
  ((segments p).filter (!·.isEmpty)).getLast?

/-! ## Segments -/

theorem segments_append_slash (p q : Path) :
    Path.segments (p ++ Path.slash :: q) = Path.segments p ++ Path.segments q := by
  obtain ⟨ms, u, hms, hu, rfl⟩ := exists_terminated Path.slash q
  have hjoin : p ++ Path.slash :: (terminated Path.slash ms ++ u) =
      terminated Path.slash (Path.segments p ++ ms) ++ u := by
    rw [terminated_append, Path.segments, terminated_splitOn, List.append_assoc, List.append_assoc,
      List.singleton_append]
  have hall : ∀ l ∈ Path.segments p ++ ms, Path.slash ∉ l :=
    List.forall_mem_append.2 ⟨fun _ => not_mem_of_mem_splitOn, hms⟩
  have hq := splitOn_terminated hms hu
  rw [hjoin, Path.segments, splitOn_terminated hall hu, List.append_assoc, ← hq]
  rfl

/-- The route of a path ends with its last segment. -/
theorem getLast?_names (h : Tree.routeAt root p = .ok r) (hn : r.names.getLast? = some n) :
    ∃ l, p.lastSegment? = some l ∧ n = Utf8.encode l := by
  obtain ⟨ks, q, hq, hp⟩ : ∃ ks q, r = Route.ofBytes (Utf8.encode q) ∧
      Path.segments p = ks ++ Path.segments q := by
    unfold Tree.routeAt at h
    split at h
    · cases h
    · simp only at h
      split at h
      · cases h
        cases hn
      · split at h
        · next hpre =>
          obtain ⟨q, rfl⟩ := List.isPrefixOf_iff_prefix.1 hpre
          rw [List.drop_left] at h
          refine ⟨Path.segments root, q, (Except.ok.inj h).symm, ?_⟩
          rw [List.append_assoc, List.singleton_append, segments_append_slash]
        · split at h
          · cases h
          · exact ⟨[], p, (Except.ok.inj h).symm, rfl⟩
  rw [hq, names_ofBytes, segmentNames, List.getLast?_map] at hn
  obtain ⟨l, hl, rfl⟩ := Option.map_eq_some_iff.1 hn
  refine ⟨l, ?_, rfl⟩
  rw [Path.lastSegment?, hp, List.filter_append, List.getLast?_append, hl, Option.some_or]

/-! ## File names -/

theorem dropInsignificant_append (hls : ls ≠ []) (hes : ∀ l ∈ es, ¬Path.isSignificant l) :
    Path.dropInsignificant (ls ++ es) = Path.dropInsignificant ls := by
  obtain ⟨first, rest, rfl⟩ := List.exists_cons_of_ne_nil hls
  have hdrop : ((rest ++ es).reverse.dropWhile fun l => !Path.isSignificant l) =
      rest.reverse.dropWhile fun l => !Path.isSignificant l := by
    rw [List.reverse_append, List.dropWhile_append_of_pos]
    intro l hl
    simpa using hes l (List.mem_reverse.1 hl)
  rw [List.cons_append, Path.dropInsignificant, hdrop, Path.dropInsignificant]

theorem mem_of_mem_core (h : l ∈ Path.core p) : l ∈ Path.segments p := by
  rw [Path.core] at h
  generalize Path.segments p = ls at h
  cases ls with
  | nil => cases h
  | cons first rest =>
    simp only [Path.dropInsignificant] at h
    split at h
    · cases h
    · rcases List.mem_cons.1 h with rfl | h
      · exact List.mem_cons_self
      · exact List.mem_cons_of_mem _ (List.mem_reverse.1
          ((List.dropWhile_suffix _).subset (List.mem_reverse.1 h)))

theorem exists_core (h : p.fileName? = some l) : ∃ ls, Path.core p = ls ++ [l] := by
  unfold Path.fileName? at h
  split at h
  · cases h
  · next name hname =>
    split at h
    · cases h
    · cases h
      exact List.getLast?_eq_some_iff.1 hname

theorem fileName?_of_core (h : Path.core p = ls ++ [l]) (hhere : l ≠ ['.'])
    (habove : l ≠ ['.', '.']) : p.fileName? = some l := by
  simp [Path.fileName?, h, hhere, habove]

theorem fileName?_of_lastSegment? (h : p.lastSegment? = some l) (hhere : l ≠ ['.'])
    (habove : l ≠ ['.', '.']) : p.fileName? = some l := by
  rw [Path.lastSegment?, List.getLast?_eq_head?_reverse, ← List.filter_reverse, List.head?_filter,
    List.find?_eq_some_iff_append] at h
  obtain ⟨hl, es, ks, hsegments, hes⟩ := h
  have hsegments : Path.segments p = ks.reverse ++ [l] ++ es.reverse := by
    rw [← List.reverse_reverse (Path.segments p), hsegments]
    simp
  have hsignificant : Path.isSignificant l := by simpa [Path.isSignificant, hhere] using hl
  have hempty : ∀ e ∈ es.reverse, ¬Path.isSignificant e := by
    intro e he hsig
    have hnil : e.isEmpty := by simpa using hes e (List.mem_reverse.1 he)
    rw [Path.isSignificant, hnil] at hsig
    cases hsig
  have hcore : Path.core p = ks.reverse ++ [l] := by
    rw [Path.core, hsegments, dropInsignificant_append (by simp) hempty,
      dropInsignificant_concat _ hsignificant]
  exact fileName?_of_core hcore hhere habove

/-! ## Extensions -/

theorem stem_append (hs : s ≠ []) (ht : '.' ∉ t) : Path.stem (s ++ '.' :: t) = s := by
  have hdrop : ((s ++ '.' :: t).reverse.dropWhile (· != '.')).drop 1 = s.reverse := by
    rw [List.reverse_append, List.reverse_cons, List.append_assoc, List.dropWhile_append_of_pos]
    · simp
    · intro c hc
      simp only [bne_iff_ne]
      rintro rfl
      exact ht (List.mem_reverse.1 hc)
  rw [Path.stem, hdrop]
  split
  · next hnil => exact absurd (List.reverse_eq_nil_iff.1 hnil) hs
  · exact List.reverse_reverse s

end PublishDesk
