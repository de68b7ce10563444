import PublishDesk.FileSystem.Access
import PublishDesk.Proofs.Text.Utf8

/-!
# Routes of paths

A path is a sequence of segments with a slash after each of them, and a last one. What its route
passes is settled by the former: paths that differ in the last segment only lead through the same
names (`routeAt_pathOf`). So do a path and the same path with another extension
(`withExtension_pathOf`). In the segments one sees as well whether a path is absolute
(`isAbsolute_pathOf_iff`), and whether it is below the root of a tree (`isPrefix_pathOf_iff`).
-/

namespace PublishDesk
open Text

variable {root p : Path} {ls : List (List Char)} {l t : List Char} {r : Route}

/-- The segments of a path, the last one apart, which is not empty. -/
structure Segmented (ls : List (List Char)) (l : List Char) : Prop where
  before : ∀ l ∈ ls, Path.slash ∉ l
  last : Path.slash ∉ l
  nonempty : l ≠ []

theorem Segmented.of_append {ks : List (List Char)} (h : Segmented (ks ++ ls) l) :
    Segmented ls l :=
  ⟨(List.forall_mem_append.1 h.before).2, h.last, h.nonempty⟩

/-- The path with these segments. -/
def pathOf (ls : List (List Char)) (l : List Char) : Path := terminated Path.slash ls ++ l

theorem pathOf_append (ks ls : List (List Char)) (l : List Char) :
    pathOf (ks ++ ls) l = terminated Path.slash ks ++ pathOf ls l := by
  rw [pathOf, terminated_append, List.append_assoc, pathOf]

theorem encodeChar_slash : Utf8.encodeChar Path.slash = [Route.slash] := rfl

theorem encode_ne_nil (h : l ≠ []) : Utf8.encode l ≠ [] := by
  obtain ⟨c, l, rfl⟩ := List.exists_cons_of_ne_nil h
  obtain ⟨b, bs, hc, -⟩ := Utf8.step_encodeChar c
  rw [Utf8.encode, List.flatMap_cons, hc]
  exact List.cons_ne_nil _ _

theorem segments_pathOf (h : Segmented ls l) : Path.segments (pathOf ls l) = ls ++ [l] :=
  splitOn_terminated h.before h.last

theorem eq_pathOf_of_segments (h : Path.segments p = ls ++ [l]) : p = pathOf ls l := by
  have hp := terminated_splitOn Path.slash p
  rw [← Path.segments, h, terminated_append, terminated_cons, ← List.append_assoc] at hp
  exact (List.append_inj_left' hp rfl).symm

/-- The names that segments stand for on a route. -/
def segmentNames (ls : List (List Char)) : List FileName :=
  (ls.filter (!·.isEmpty)).map Utf8.encode

theorem segmentNames_append (ks ls : List (List Char)) :
    segmentNames (ks ++ ls) = segmentNames ks ++ segmentNames ls := by
  rw [segmentNames, List.filter_append, List.map_append, segmentNames, segmentNames]

theorem segmentNames_singleton (h : l ≠ []) : segmentNames [l] = [Utf8.encode l] := by
  simp [segmentNames, h]

theorem names_ofBytes (q : Path) :
    (Route.ofBytes (Utf8.encode q)).names = segmentNames (Path.segments q) := by
  obtain ⟨ls, t, hls, ht, rfl⟩ := exists_terminated Path.slash q
  have hbytes : ∀ m ∈ ls.map Utf8.encode, Route.slash ∉ m := by
    intro m hm
    obtain ⟨l, hl, rfl⟩ := List.mem_map.1 hm
    exact Utf8.not_mem_encode encodeChar_slash (hls l hl)
  have hempty (l : List Char) : (Utf8.encode l).isEmpty = l.isEmpty := by
    cases l with
    | nil => rfl
    | cons c l =>
      rw [List.isEmpty_cons, List.isEmpty_eq_false_iff]
      exact encode_ne_nil (List.cons_ne_nil c l)
  rw [Utf8.encode_append, Utf8.encode_terminated encodeChar_slash, Route.ofBytes,
    splitOn_terminated hbytes (Utf8.not_mem_encode encodeChar_slash ht), Path.segments,
    splitOn_terminated hls ht, ← List.map_singleton, ← List.map_append, List.filter_map]
  exact congrArg _ (List.filter_congr fun l _ => congrArg not (hempty l))

/-- The names on the route of a path. -/
theorem ofBytes_pathOf (h : Segmented ls l) :
    Route.ofBytes (Utf8.encode (pathOf ls l)) = ⟨segmentNames ls ++ [Utf8.encode l], false⟩ := by
  have hnames := names_ofBytes (pathOf ls l)
  rw [segments_pathOf h, segmentNames_append, segmentNames_singleton h.nonempty] at hnames
  have hlast : Route.slash ∉ Utf8.encode l := Utf8.not_mem_encode encodeChar_slash h.last
  have hnonempty := encode_ne_nil h.nonempty
  have hclosed : (Route.ofBytes (Utf8.encode (pathOf ls l))).closed = false := by
    rw [pathOf, Utf8.encode_append, Route.ofBytes, List.getLast?_append,
      List.getLast?_eq_some_getLast hnonempty, Option.some_or]
    exact beq_false_of_ne fun heq => hlast (Option.some.inj heq ▸ List.getLast_mem hnonempty)
  rw [← hnames, ← hclosed]

/-! ## Absolute paths -/

theorem exists_segments_eq (p : Path) : ∃ l ls, Path.segments p = l :: ls :=
  List.exists_cons_of_ne_nil (splitOn_ne_nil Path.slash p)

theorem isAbsolute_iff (h : Path.segments p = l :: ls) : p.isAbsolute ↔ l = [] ∧ ls ≠ [] := by
  cases p with
  | nil =>
    cases h
    exact iff_of_false Bool.false_ne_true fun h => h.2 rfl
  | cons c p =>
    obtain ⟨t, ts, hp⟩ := exists_segments_eq p
    rw [Path.segments] at hp
    by_cases hc : c = Path.slash
    · subst hc
      rw [Path.segments, splitOn, if_pos rfl] at h
      cases h
      exact iff_of_true (beq_self_eq_true _) ⟨rfl, splitOn_ne_nil Path.slash p⟩
    · rw [Path.segments, splitOn, if_neg hc, hp] at h
      cases h
      refine iff_of_false (fun h => hc ?_) fun h => List.cons_ne_nil _ _ h.1
      exact Option.some.inj (beq_iff_eq.1 h)

/-- Whether a path is absolute is settled by what stands before its last segment. -/
theorem isAbsolute_pathOf_iff (h : Segmented ls l) :
    (pathOf ls l).isAbsolute ↔ ls.head? = some [] := by
  have hp := segments_pathOf h
  cases ls with
  | nil =>
    rw [isAbsolute_iff hp]
    exact iff_of_false (fun habs => h.nonempty habs.1) nofun
  | cons m ms =>
    rw [List.cons_append] at hp
    rw [isAbsolute_iff hp, List.head?_cons, Option.some_inj]
    exact and_iff_left (by simp)

/-! ## Routes from the root of a tree -/

theorem routeAt_below (root q : Path) :
    Tree.routeAt root (root ++ Path.slash :: q) = .ok (Route.ofBytes (Utf8.encode q)) := by
  have hne : root ++ Path.slash :: q ≠ root := by simp
  have hdrop : root ++ Path.slash :: q = root ++ [Path.slash] ++ q := by simp
  have hpre : (root ++ [Path.slash]).isPrefixOf (root ++ Path.slash :: q) :=
    List.isPrefixOf_iff_prefix.2 ⟨q, hdrop.symm⟩
  rw [Tree.routeAt, if_neg (by simp), if_neg hne]
  simp only [hpre, if_true]
  rw [hdrop, List.drop_left]

theorem routeAt_elsewhere (hne : p ≠ []) (hroot : p ≠ root)
    (hpre : ¬root ++ [Path.slash] <+: p) :
    Tree.routeAt root p =
      if p.isAbsolute then .error .notFound else .ok (Route.ofBytes (Utf8.encode p)) := by
  have hpre : (root ++ [Path.slash]).isPrefixOf p = false := by
    rw [Bool.eq_false_iff]
    exact fun h => hpre (List.isPrefixOf_iff_prefix.1 h)
  rw [Tree.routeAt, if_neg (by simp [hne]), if_neg hroot]
  simp only [hpre, Bool.false_eq_true, if_false]

theorem pathOf_segments_append (root : Path) (ms : List (List Char)) (l : List Char) :
    pathOf (Path.segments root ++ ms) l = root ++ Path.slash :: pathOf ms l := by
  rw [pathOf_append, Path.segments, terminated_splitOn, List.append_assoc, List.singleton_append]

theorem isPrefix_pathOf_iff (h : Segmented ls l) :
    root ++ [Path.slash] <+: pathOf ls l ↔ Path.segments root <+: ls := by
  constructor
  · intro hpre
    rw [← terminated_splitOn] at hpre
    obtain ⟨ms, rfl⟩ := exists_of_terminated_isPrefix (fun _ => not_mem_of_mem_splitOn) h.before
      h.last hpre
    exact List.prefix_append _ _
  · rintro ⟨ms, rfl⟩
    rw [pathOf_segments_append]
    exact ⟨pathOf ms l, (List.append_cons ..).symm⟩

theorem routeAt_pathOf_below {ms : List (List Char)} (h : Segmented ms l) :
    Tree.routeAt root (pathOf (Path.segments root ++ ms) l) =
      .ok ⟨segmentNames ms ++ [Utf8.encode l], false⟩ := by
  rw [pathOf_segments_append, routeAt_below, ofBytes_pathOf h]

theorem routeAt_pathOf_elsewhere (h : Segmented ls l) (hroot : pathOf ls l ≠ root)
    (hbelow : ¬Path.segments root <+: ls) :
    Tree.routeAt root (pathOf ls l) = if (pathOf ls l).isAbsolute then .error .notFound
      else .ok ⟨segmentNames ls ++ [Utf8.encode l], false⟩ := by
  have hne : pathOf ls l ≠ [] := List.append_ne_nil_of_right_ne_nil _ h.nonempty
  rw [routeAt_elsewhere hne hroot (mt (isPrefix_pathOf_iff h).1 hbelow), ofBytes_pathOf h]

/-- Paths that differ in the last segment lead through the same names. -/
theorem routeAt_pathOf (hl : Segmented ls l) (ht : Segmented ls t) (hlroot : pathOf ls l ≠ root)
    (htroot : pathOf ls t ≠ root) (h : Tree.routeAt root (pathOf ls l) = .ok r) :
    ∃ ns, r = ⟨ns ++ [Utf8.encode l], false⟩ ∧
      Tree.routeAt root (pathOf ls t) = .ok ⟨ns ++ [Utf8.encode t], false⟩ := by
  by_cases hbelow : Path.segments root <+: ls
  · obtain ⟨ms, rfl⟩ := hbelow
    rw [routeAt_pathOf_below hl.of_append] at h
    cases h
    exact ⟨_, rfl, routeAt_pathOf_below ht.of_append⟩
  · rw [routeAt_pathOf_elsewhere hl hlroot hbelow] at h
    split at h
    · cases h
    · next habsolute =>
      cases h
      refine ⟨_, rfl, ?_⟩
      rw [routeAt_pathOf_elsewhere ht htroot hbelow, if_neg]
      rwa [isAbsolute_pathOf_iff ht, ← isAbsolute_pathOf_iff hl]

theorem closed_ofBytes (h : p.getLast? = some Path.slash) :
    (Route.ofBytes (Utf8.encode p)).closed := by
  obtain ⟨q, rfl⟩ := List.getLast?_eq_some_iff.1 h
  rw [Utf8.encode_append]
  change ((_ ++ [Route.slash]).getLast? == some Route.slash) = true
  rw [List.getLast?_concat, beq_self_eq_true]

theorem closed_of_routeAt_root (h : Tree.routeAt root root = .ok r) : r.closed = true := by
  unfold Tree.routeAt at h
  split at h
  · cases h
  · rw [if_pos rfl] at h
    cases h
    rfl

/-- A route that ends with a name is that of a path with a last segment. -/
theorem exists_segments (h : Tree.routeAt root p = .ok r) (hclosed : r.closed = false)
    (hnames : r.names ≠ []) : ∃ ls l, Segmented ls l ∧ p = pathOf ls l ∧ p ≠ root := by
  obtain ⟨ls, l, hls, hl, hp⟩ := exists_terminated Path.slash p
  have hroot : p ≠ root := by
    rintro rfl
    rw [closed_of_routeAt_root h] at hclosed
    cases hclosed
  refine ⟨ls, l, ⟨hls, hl, ?_⟩, hp, hroot⟩
  rintro rfl
  -- Else the path ends with a slash, and so does what is below the root.
  obtain ⟨q, hq, rfl⟩ : ∃ q, q <:+ p ∧ r = Route.ofBytes (Utf8.encode q) := by
    unfold Tree.routeAt at h
    split at h
    · cases h
    · simp only at h
      split at h
      · exact ⟨_, List.drop_suffix _ _, (Except.ok.inj h).symm⟩
      · split at h
        · cases h
        · exact ⟨_, List.suffix_refl _, (Except.ok.inj h).symm⟩
  have hne : q ≠ [] := fun hq => hnames (by rw [hq]; rfl)
  have hlast : q.getLast? = some Path.slash := by
    obtain rfl | ⟨ks, m, hks⟩ := ls.eq_nil_or_concat
    · rw [show p = [] from hp, List.suffix_nil] at hq
      exact absurd hq hne
    · obtain ⟨u, hu⟩ := hq
      have hend : p.getLast? = some Path.slash := by
        rw [hp, hks, List.concat_eq_append, terminated_append, List.append_nil, terminated_cons]
        simp [terminated]
      rwa [← hu, List.getLast?_append, List.getLast?_eq_some_getLast hne, Option.some_or,
        ← List.getLast?_eq_some_getLast hne] at hend
  rw [closed_ofBytes hlast] at hclosed
  cases hclosed

/-! ## Other extensions -/

theorem dropInsignificant_concat (ls : List (List Char)) (h : Path.isSignificant l) :
    Path.dropInsignificant (ls ++ [l]) = ls ++ [l] := by
  have hdrop (rest : List (List Char)) :
      ((rest ++ [l]).reverse.dropWhile fun s => !Path.isSignificant s).reverse = rest ++ [l] := by
    rw [List.reverse_append, List.reverse_singleton, List.singleton_append,
      List.dropWhile_cons_of_neg (by simp [h]), List.reverse_cons, List.reverse_reverse]
  cases ls with
  | nil =>
    have hl : l.isEmpty = false := by
      rw [Path.isSignificant, Bool.and_eq_true, Bool.not_eq_true'] at h
      exact h.1
    simp [Path.dropInsignificant, hl]
  | cons first rest =>
    rw [List.cons_append, Path.dropInsignificant, hdrop]
    simp

/-- The last segment of a path is what an extension belongs to. -/
theorem withExtension_pathOf (h : Segmented ls l) (hhere : l ≠ ['.']) (habove : l ≠ ['.', '.'])
    (extension : List Char) :
    (pathOf ls l).withExtension extension = pathOf ls (Path.stem l ++ '.' :: extension) := by
  have hcore : Path.core (pathOf ls l) = ls ++ [l] := by
    rw [Path.core, segments_pathOf h]
    exact dropInsignificant_concat ls (by simp [Path.isSignificant, h.nonempty, hhere])
  have hname : Path.fileName? (pathOf ls l) = some l := by
    simp [Path.fileName?, hcore, hhere, habove]
  simp only [Path.withExtension, hname, hcore]
  rw [List.dropLast_concat, Path.ofSegments, joinWith_concat, pathOf]

theorem mem_of_mem_stem {c : Char} (h : c ∈ Path.stem l) : c ∈ l := by
  unfold Path.stem at h
  split at h
  · exact h
  · rw [List.mem_reverse] at h
    exact List.mem_reverse.1 ((List.dropWhile_suffix _).subset (List.mem_of_mem_drop h))

end PublishDesk
