import Mathlib.Data.List.DropRight
import PublishDesk.Proofs.FileSystem.LastName

/-!
# Components of paths

A path means the same as its components: the root or the current directory that it starts from, and
what its segments mean. The path of a file consists of the path of its directory, segments that mean
nothing, its name, and segments that mean nothing (`exists_placed`). The name joined to the
directory leaves these out, and has the same components (`Placed.components_join`).
-/

namespace PublishDesk
open Text

variable {p q d : Path} {s n : List Char} {ss ts ls ks es : List (List Char)}

namespace Path

inductive Component where
  | root
  /-- The current directory. -/
  | here
  /-- The directory above. -/
  | above
  | name (name : List Char)
deriving DecidableEq, Repr

/-- What a segment means, unless it is the first one. -/
def Component.ofSegment? (s : List Char) : Option Component :=
  if !isSignificant s then none else if s = ['.', '.'] then some .above else some (.name s)

/-- What a path starts from, if it says so. -/
def opening? (p : Path) : Option Component :=
  if p.isAbsolute then some .root
  else if (segments p).head? = some ['.'] then some .here
  else none

def components (p : Path) : List Component :=
  p.opening?.toList ++ (segments p).filterMap Component.ofSegment?

example : components "/srv//./desk/../site/".toList =
    [.root, .name "srv".toList, .name "desk".toList, .above, .name "site".toList] := by decide

/-! ## First segments -/

theorem opening?_eq (h : segments p = s :: ss) :
    p.opening? = if s = [] ∧ ss ≠ [] then some .root
      else if s = ['.'] then some .here else none := by
  rw [opening?, h]
  refine if_congr (isAbsolute_iff h) rfl (if_congr ?_ rfl rfl)
  rw [List.head?_cons, Option.some_inj]

/-- Paths with the same first segment have the same components if the segments behind it mean the
same. -/
theorem components_congr (hp : segments p = s :: ss) (hq : segments q = s :: ts)
    (hempty : s = [] → ss ≠ [] ∧ ts ≠ [])
    (h : ss.filterMap Component.ofSegment? = ts.filterMap Component.ofSegment?) :
    components p = components q := by
  have hopening : p.opening? = q.opening? := by
    rw [opening?_eq hp, opening?_eq hq]
    exact if_congr (and_congr_right fun hs => iff_of_true (hempty hs).1 (hempty hs).2) rfl rfl
  rw [components, components, hopening, hp, hq, List.filterMap_cons, List.filterMap_cons, h]

/-! ## Segments that mean something -/

theorem ofSegment?_eq_none_iff : Component.ofSegment? s = none ↔ ¬isSignificant s := by
  rw [Component.ofSegment?]
  split_ifs <;> simp_all

theorem filterMap_of_insignificant (h : ∀ s ∈ es, ¬isSignificant s) :
    es.filterMap Component.ofSegment? = [] :=
  List.filterMap_eq_nil_iff.2 fun s hs => ofSegment?_eq_none_iff.2 (h s hs)

theorem isSignificant_iff : isSignificant s ↔ s ≠ [] ∧ s ≠ ['.'] := by
  simp [isSignificant]

/-- What is dropped at the end means nothing, and what is kept before it ends with a segment that
means something, or with the first segment. -/
theorem exists_kept (s : List Char) (ss : List (List Char)) :
    ∃ ks es, ss = ks ++ es ∧ (∀ e ∈ es, ¬isSignificant e) ∧ (∀ k ∈ ks.getLast?, isSignificant k) ∧
      dropInsignificant (s :: ss) = if ks = [] ∧ s = [] then [] else s :: ks := by
  refine ⟨ss.rdropWhile fun s => !isSignificant s, ss.rtakeWhile fun s => !isSignificant s,
    List.rdropWhile_append_rtakeWhile.symm, fun e he => ?_, fun k hk => ?_, ?_⟩
  · simpa using List.mem_rtakeWhile_imp he
  · obtain ⟨hne, rfl⟩ := List.mem_getLast?_eq_getLast hk
    simpa using List.rdropWhile_last_not _ _ hne
  · simp only [dropInsignificant, Bool.and_eq_true, List.isEmpty_iff]
    rfl

/-- What is kept does not end with an empty segment. -/
theorem ne_nil_of_dropInsignificant (h : dropInsignificant ss = ls ++ [n]) : n ≠ [] := by
  cases ss with
  | nil => simp [dropInsignificant] at h
  | cons s ss =>
    obtain ⟨ks, es, rfl, -, hlast, hdrop⟩ := exists_kept s ss
    rw [hdrop] at h
    split_ifs at h with hnone
    · simp at h
    · have hend := congrArg List.getLast? h
      rw [List.getLast?_cons, List.getLast?_concat, Option.some_inj] at hend
      subst hend
      cases hks : ks.getLast? with
      | none => exact fun hs => hnone ⟨List.getLast?_eq_none_iff.1 hks, hs⟩
      | some k => exact (isSignificant_iff.1 (hlast k hks)).1

theorem length_dropInsignificant_le (ss : List (List Char)) :
    (dropInsignificant ss).length ≤ ss.length := by
  cases ss with
  | nil => exact le_rfl
  | cons s ss =>
    obtain ⟨ks, es, rfl, -, -, hdrop⟩ := exists_kept s ss
    rw [hdrop]
    split_ifs
    · exact Nat.zero_le _
    · simp

theorem exists_segments_of_core (h : core p = ls ++ [n]) :
    ∃ es, segments p = ls ++ n :: es ∧ ∀ e ∈ es, ¬isSignificant e := by
  obtain ⟨s, ss, hp⟩ := exists_segments_eq p
  obtain ⟨ks, es, rfl, hes, -, hdrop⟩ := exists_kept s ss
  rw [core, hp, hdrop] at h
  split_ifs at h
  · simp at h
  · refine ⟨es, ?_, hes⟩
    rw [hp, ← List.cons_append, h, List.append_assoc, List.singleton_append]

/-! ## The directory of a file -/

/-- The segments that stand before the name in the path of a file, and the path of its directory. -/
inductive Holder : List (List Char) → Path → Prop
  | bare : Holder [] []
  | root : Holder [[]] [slash]
  | below {ks : List (List Char)} {k : List Char} (h : Segmented ks k) :
    Holder (ks ++ [k]) (pathOf ks k)

theorem isAbsolute_eq_false (h : slash ∉ n) : isAbsolute n = false := by
  cases n with
  | nil => rfl
  | cons c n => exact beq_false_of_ne fun hc => h (Option.some.inj hc ▸ .head _)

theorem Holder.join_eq (h : Holder ks d) (hn : slash ∉ n) : join d n = pathOf ks n := by
  rw [join, isAbsolute_eq_false hn, if_neg Bool.false_ne_true]
  cases h with
  | bare => rfl
  | root => rfl
  | @below ks k h =>
    have hne : pathOf ks k ≠ [] := List.append_ne_nil_of_right_ne_nil _ h.nonempty
    have hlast : (pathOf ks k).getLast? ≠ some slash := by
      rw [pathOf, List.getLast?_append, List.getLast?_eq_some_getLast h.nonempty, Option.some_or]
      exact fun heq => h.last (Option.some.inj heq ▸ List.getLast_mem h.nonempty)
    rw [if_neg (by simp [hne, hlast]), pathOf, pathOf, terminated_append, List.append_assoc,
      List.append_assoc]
    simp [terminated]

theorem Holder.mem_cases (h : Holder ks d) {c : Char} (hc : c ∈ d) :
    c = slash ∨ ∃ k ∈ ks, c ∈ k := by
  cases h with
  | bare => cases hc
  | root => exact .inl (List.mem_singleton.1 hc)
  | @below ks k h =>
    rcases List.mem_append.1 hc with hc | hc
    · rcases mem_terminated hc with hc | ⟨l, hl, hc⟩
      · exact .inl hc
      · exact .inr ⟨l, List.mem_append_left _ hl, hc⟩
    · exact .inr ⟨k, by simp, hc⟩

theorem Holder.eq_nil_iff (h : Holder ks d) : d = [] ↔ ks = [] := by
  cases h with
  | bare => exact iff_of_true rfl rfl
  | root => exact iff_of_false (List.cons_ne_nil _ _) (List.cons_ne_nil _ _)
  | below h =>
    exact iff_of_false (List.append_ne_nil_of_right_ne_nil _ h.nonempty)
      (List.append_ne_nil_of_right_ne_nil _ (List.cons_ne_nil _ _))

theorem parent?_eq (h : core p = ls ++ [n]) :
    p.parent? = some (if dropInsignificant ls = [] ∧ p.isAbsolute then [slash]
      else ofSegments (dropInsignificant ls)) := by
  rw [parent?, h]
  split
  · next hnil => simp at hnil
  · simp

/-- What stands before the name of a file is its directory, and then segments that mean nothing. -/
theorem exists_holder (h : core p = ls ++ [n]) :
    ∃ d ks es, p.parent? = some d ∧ Holder ks d ∧ ls = ks ++ es ∧ (∀ e ∈ es, ¬isSignificant e) ∧
      (ks = [] → es = []) := by
  have hn := ne_nil_of_dropInsignificant h
  obtain ⟨fs, hp, -⟩ := exists_segments_of_core h
  have hslash (l : List Char) (hl : l ∈ ls) : slash ∉ l :=
    not_mem_of_mem_splitOn (hp ▸ List.mem_append_left _ hl)
  rw [parent?_eq h]
  cases ls with
  | nil =>
    have hrelative : ¬p.isAbsolute := fun habs => hn ((isAbsolute_iff hp).1 habs).1
    refine ⟨_, [], [], rfl, ?_, rfl, nofun, fun _ => rfl⟩
    rw [if_neg fun h => hrelative h.2]
    exact .bare
  | cons s ss =>
    obtain ⟨ks, es, rfl, hes, hlast, hdrop⟩ := exists_kept s ss
    by_cases hroot : ks = [] ∧ s = []
    · obtain ⟨rfl, rfl⟩ := hroot
      have habsolute : p.isAbsolute := (isAbsolute_iff hp).2 ⟨rfl, by simp⟩
      refine ⟨_, [[]], es, rfl, ?_, rfl, hes, nofun⟩
      rw [if_pos ⟨hdrop, habsolute⟩]
      exact .root
    · rw [if_neg hroot] at hdrop
      refine ⟨_, s :: ks, es, rfl, ?_, rfl, hes, nofun⟩
      obtain ⟨ls, l, hls⟩ := (s :: ks).eq_nil_or_concat.resolve_left (List.cons_ne_nil s ks)
      rw [List.concat_eq_append] at hls
      rw [hdrop, if_neg fun h => List.cons_ne_nil _ _ h.1, hls, ofSegments, joinWith_concat]
      have hmem (k : List Char) (hk : k ∈ ls ++ [l]) : slash ∉ k :=
        hslash k (by rw [← hls] at hk; exact List.mem_append_left _ hk)
      exact .below ⟨fun k hk => hmem k (List.mem_append_left _ hk), hmem l (by simp),
        ne_nil_of_dropInsignificant (hdrop.trans hls)⟩

/-! ## The name of a file -/

theorem ofSegment?_fileName (h : p.fileName? = some n) :
    Component.ofSegment? n = some (.name n) := by
  obtain ⟨ls, hcore⟩ := exists_core h
  simp only [fileName?, hcore, List.getLast?_concat] at h
  split_ifs at h with hdots
  obtain ⟨hhere, habove⟩ := not_or.1 hdots
  have hn := isSignificant_iff.2 ⟨ne_nil_of_dropInsignificant hcore, hhere⟩
  simp [Component.ofSegment?, hn, habove]

/-- The path of a file, its directory, and what stands between the two and behind the name. -/
structure Placed (p : Path) (n : List Char) (d : Path) (ks es fs : List (List Char)) : Prop where
  holder : Holder ks d
  segmented : Segmented ks n
  segments_eq : segments p = ks ++ es ++ n :: fs
  between : ∀ e ∈ es, ¬isSignificant e
  behind : ∀ f ∈ fs, ¬isSignificant f
  bare : ks = [] → es = []

theorem exists_placed (h : p.fileName? = some n) :
    ∃ d ks es fs, p.parent? = some d ∧ Placed p n d ks es fs := by
  obtain ⟨ls, hcore⟩ := exists_core h
  obtain ⟨d, ks, es, hd, hholder, rfl, hes, hbare⟩ := exists_holder hcore
  obtain ⟨fs, hp, hfs⟩ := exists_segments_of_core hcore
  have hslash (l : List Char) (hl : l ∈ ks ++ es ++ n :: fs) : slash ∉ l :=
    not_mem_of_mem_splitOn (hp ▸ hl)
  have hsegmented : Segmented ks n :=
    ⟨fun k hk => hslash k (by simp [hk]), hslash n (by simp), ne_nil_of_dropInsignificant hcore⟩
  exact ⟨d, ks, es, fs, hd, hholder, hsegmented, hp, hes, hfs, hbare⟩

namespace Placed

variable {fs : List (List Char)} (H : Placed p n d ks es fs)
include H

theorem join_eq : join d n = pathOf ks n := H.holder.join_eq H.segmented.last

theorem not_mem_directory {c : Char} (hc : c ∉ p) (hslash : c ≠ slash) : c ∉ d := by
  intro hmem
  obtain ⟨k, hk, hck⟩ := (H.holder.mem_cases hmem).resolve_left hslash
  have hsegment : k ∈ segments p := by
    rw [H.segments_eq, List.append_assoc]
    exact List.mem_append_left _ hk
  exact hc (mem_of_mem_splitOn hsegment hck)

/-- The name joined to the directory leaves out only what means nothing. -/
theorem components_join : components (join d n) = components p := by
  have hp := H.segments_eq
  have hq := segments_pathOf H.segmented
  rw [H.join_eq]
  cases ks with
  | nil =>
    rw [H.bare rfl] at hp
    refine components_congr hq hp (fun hn => absurd hn H.segmented.nonempty) ?_
    rw [filterMap_of_insignificant H.behind, List.filterMap_nil]
  | cons k ks =>
    rw [List.cons_append] at hq
    rw [List.cons_append, List.cons_append] at hp
    refine components_congr hq hp (fun _ => by simp) ?_
    rw [List.append_assoc, List.filterMap_append, List.filterMap_append, List.filterMap_append,
      filterMap_of_insignificant H.between, List.nil_append, List.filterMap_cons,
      List.filterMap_cons, filterMap_of_insignificant H.behind, List.filterMap_nil]

/-- The directory has no path only if the name of the file is all that its path means. -/
theorem eq_nil_iff (hn : Component.ofSegment? n = some (.name n)) :
    d = [] ↔ components p = [.name n] := by
  have hq := segments_pathOf H.segmented
  rw [H.holder.eq_nil_iff, ← H.components_join, H.join_eq, components, hq, List.filterMap_append,
    List.filterMap_cons_some hn, List.filterMap_nil, ← List.append_assoc, List.append_left_eq_self,
    List.append_eq_nil_iff, Option.toList_eq_nil_iff]
  cases ks with
  | nil =>
    have hhere : n ≠ ['.'] := by
      rintro rfl
      cases hn
    refine iff_of_true rfl ⟨?_, rfl⟩
    rw [opening?_eq hq, if_neg fun h => H.segmented.nonempty h.1, if_neg hhere]
  | cons k ks =>
    refine iff_of_false (List.cons_ne_nil k ks) ?_
    rintro ⟨hopening, hnone⟩
    -- A first segment that is not significant is one that a path starts from.
    have hk := ofSegment?_eq_none_iff.1 (List.filterMap_eq_nil_iff.1 hnone k (.head ks))
    rw [opening?_eq hq] at hopening
    split_ifs at hopening with hroot hhere
    exact hk (isSignificant_iff.2 ⟨fun h => hroot ⟨h, by simp⟩, hhere⟩)

end Placed

end Path
end PublishDesk
