import PublishDesk.Proofs.FileSystem.Components
import PublishDesk.Proofs.FileSystem.Entry

/-!
# Directories of files

Where the path of a file leads to a file of a tree, the path of its directory leads to a directory
there, unless that path is empty, and the name joined to it leads to the file
(`LeadsToFile.of_placed`). What stands between the directory and the name are slashes and names that
a directory has for itself, and a walk stays where it is at these (`Walks.of_append_here`).
-/

namespace PublishDesk
open Text

variable {root p d : Path} {n l : List Char} {ks es fs : List (List Char)} {top : Tree} {w : Way}
  {r : Route}

/-! ## Where trees stand -/

/-- The path of a place in the file system, as it is known there: that of the root is empty, and
any other one starts from the root and ends with a segment that means something. -/
def Path.IsPlace (root : Path) : Prop :=
  root = [] ∨ root.isAbsolute ∧ Path.core root = Path.segments root

namespace Path.IsPlace

theorem ne (h : root.IsPlace) (hp : ¬p.isAbsolute) (hne : p ≠ []) : p ≠ root := by
  rcases h with rfl | ⟨habsolute, -⟩
  · exact hne
  · rintro rfl
    exact hp habsolute

theorem eq_nil (h : root.IsPlace) (hroot : segments root = ks ++ es) (hks : ks ≠ [])
    (hes : ∀ e ∈ es, ¬isSignificant e) : es = [] := by
  have hpos := List.length_pos_iff.2 hks
  rw [← List.length_eq_zero_iff]
  rcases h with rfl | ⟨-, hcore⟩
  · have hlength : 1 = (ks ++ es).length := congrArg List.length hroot
    rw [List.length_append] at hlength
    omega
  · rw [core, hroot, dropInsignificant_append hks hes] at hcore
    have hlength := length_dropInsignificant_le ks
    rw [hcore, List.length_append] at hlength
    omega

/-- Segments that mean nothing make no difference to whether a path is below a place. -/
theorem isPrefix (h : root.IsPlace) (hpre : segments root <+: ks ++ es) (hks : ks ≠ [])
    (hes : ∀ e ∈ es, ¬isSignificant e) : segments root <+: ks := by
  rcases List.prefix_or_prefix_of_prefix hpre (List.prefix_append ks es) with hroot | hroot
  · exact hroot
  · obtain ⟨fs, hfs⟩ := hroot
    rw [← hfs, List.prefix_append_right_inj] at hpre
    obtain rfl := h.eq_nil hfs.symm hks fun f hf => hes f (hpre.subset hf)
    rw [List.append_nil] at hfs
    exact hfs ▸ List.prefix_rfl

end Path.IsPlace

theorem eq_here_of_mem_segmentNames (hes : ∀ e ∈ es, ¬Path.isSignificant e) {m : FileName}
    (hm : m ∈ segmentNames es) : m = Route.here := by
  obtain ⟨e, he, rfl⟩ := List.mem_map.1 hm
  obtain ⟨he, hempty⟩ := List.mem_filter.1 he
  have hdot : e = ['.'] := by
    by_contra hdot
    exact hes e he (Path.isSignificant_iff.2 ⟨by simpa using hempty, hdot⟩)
  rw [hdot]
  rfl

theorem routeAt_root (h : root ≠ []) : Tree.routeAt root root = .ok ⟨[], true⟩ := by
  rw [Tree.routeAt, if_neg (by simp [h])]
  exact if_pos rfl

theorem exists_routeAt_below {ms : List (List Char)} (hroot : root.IsPlace)
    (hd : Path.Holder (Path.segments root ++ ms) d) :
    ∃ closed, Tree.routeAt root d = .ok ⟨segmentNames ms, closed⟩ := by
  obtain ⟨s, ss, hs⟩ := exists_segments_eq root
  generalize hks : Path.segments root ++ ms = ks at hd
  cases hd with
  | bare =>
    rw [hs] at hks
    cases hks
  | root =>
    rw [hs, List.cons_append] at hks
    obtain ⟨rfl, hnil⟩ := List.cons.inj hks
    obtain ⟨rfl, rfl⟩ := List.append_eq_nil_iff.1 hnil
    rcases hroot with rfl | ⟨habsolute, -⟩
    · exact ⟨false, routeAt_below [] []⟩
    · exact absurd rfl ((isAbsolute_iff hs).1 habsolute).2
  | @below ks k h =>
    obtain rfl | ⟨ms, m, rfl⟩ := ms.eq_nil_or_concat
    · rw [List.append_nil] at hks
      obtain rfl := eq_pathOf_of_segments hks
      exact ⟨true, routeAt_root (List.append_ne_nil_of_right_ne_nil _ h.nonempty)⟩
    · rw [List.concat_eq_append, ← List.append_assoc] at hks
      obtain ⟨rfl, hkm⟩ := List.append_inj' hks rfl
      obtain rfl := List.singleton_inj.1 hkm
      rw [List.concat_eq_append, segmentNames_append, segmentNames_singleton h.nonempty]
      exact ⟨false, routeAt_pathOf_below h.of_append⟩

theorem routeAt_relative (hroot : root.IsPlace) (hd : Path.Holder ks d) (hks : ks ≠ [])
    (hrelative : ks.head? ≠ some []) (hbelow : ¬Path.segments root <+: ks) :
    Tree.routeAt root d = .ok ⟨segmentNames ks, false⟩ := by
  cases hd with
  | bare => exact absurd rfl hks
  | root => exact absurd rfl hrelative
  | @below ks k h =>
    have hopen : ¬(pathOf ks k).isAbsolute := by
      rw [isAbsolute_pathOf_iff h]
      intro hhead
      rw [List.head?_append, hhead, Option.some_or] at hrelative
      exact hrelative rfl
    have hne := hroot.ne hopen (List.append_ne_nil_of_right_ne_nil _ h.nonempty)
    rw [routeAt_pathOf_elsewhere h hne fun hpre => hbelow (hpre.trans (List.prefix_append ks [k])),
      if_neg hopen, segmentNames_append, segmentNames_singleton h.nonempty]

/-- The routes of a file, of the same file without what means nothing before its name, and of its
directory. -/
theorem exists_routes (hroot : root.IsPlace) (hd : Path.Holder ks d) (hks : ks ≠ [])
    (hl : Segmented (ks ++ es) l) (hes : ∀ e ∈ es, ¬Path.isSignificant e)
    (hne : pathOf (ks ++ es) l ≠ root) (h : Tree.routeAt root (pathOf (ks ++ es) l) = .ok r) :
    ∃ ns hs closed, (∀ m ∈ hs, m = Route.here) ∧ r = ⟨ns ++ hs ++ [Utf8.encode l], false⟩ ∧
      Tree.routeAt root (pathOf ks l) = .ok ⟨ns ++ [Utf8.encode l], false⟩ ∧
      Tree.routeAt root d = .ok ⟨ns, closed⟩ := by
  have hl' : Segmented ks l :=
    ⟨(List.forall_mem_append.1 hl.before).1, hl.last, hl.nonempty⟩
  have hhere (m : FileName) := eq_here_of_mem_segmentNames (m := m) hes
  by_cases hbelow : Path.segments root <+: ks ++ es
  · obtain ⟨ms, rfl⟩ := hroot.isPrefix hbelow hks hes
    obtain ⟨closed, hclosed⟩ := exists_routeAt_below hroot hd
    rw [List.append_assoc] at h hl
    rw [routeAt_pathOf_below hl.of_append, segmentNames_append] at h
    cases h
    exact ⟨_, _, closed, hhere, rfl, routeAt_pathOf_below hl'.of_append, hclosed⟩
  · have hbelow' : ¬Path.segments root <+: ks :=
      fun hpre => hbelow (hpre.trans (List.prefix_append ks es))
    rw [routeAt_pathOf_elsewhere hl hne hbelow, segmentNames_append] at h
    split_ifs at h with habsolute
    cases h
    have hhead : ks.head? ≠ some [] := by
      rwa [isAbsolute_pathOf_iff hl, List.head?_append_of_ne_nil _ hks] at habsolute
    have hopen : ¬(pathOf ks l).isAbsolute := mt (isAbsolute_pathOf_iff hl').1 hhead
    have hne' := hroot.ne hopen (List.append_ne_nil_of_right_ne_nil _ hl.nonempty)
    refine ⟨_, _, false, hhere, rfl, ?_, routeAt_relative hroot hd hks hhead hbelow'⟩
    rw [routeAt_pathOf_elsewhere hl' hne' hbelow', if_neg hopen]

namespace Tree

variable {last closed : Bool} {links : Nat} {ns hs : List FileName} {a : Arrival}

/-! ## Walks to directories -/

theorem Walks.of_append_here (h : Walks top true links w true (ns ++ hs) a)
    (hhs : ∀ m ∈ hs, m = Route.here) : Walks top true links w true ns a := by
  induction hs using List.reverseRecOn generalizing a with
  | nil => rwa [List.append_nil] at h
  | append_singleton hs m ih =>
    rw [← List.append_assoc] at h
    obtain ⟨b, hb, hmissing, hlast⟩ := h.exists_directory
    obtain rfl := hhs m (by simp)
    have hclosed := hb.closed_eq rfl
    obtain ⟨way, missing, closed, left⟩ := b
    obtain rfl : missing = none := hmissing
    obtain rfl : closed = true := hclosed
    refine ih ?_ fun m hm => hhs m (List.mem_append_left _ hm)
    generalize hk : Route.here = k at hlast
    cases hlast with
    | here hdir h =>
      cases h
      exact hb
    | above => cases hk
    | missing hname => exact absurd hk.symm hname.here
    | follow hname => exact absurd hk.symm hname.here
    | enter hname => exact absurd hk.symm hname.here

theorem Holds.follow_closed (h : Holds top ns a) (closed : Bool) :
    top.follow true ⟨ns, closed⟩ = .ok a.way := by
  obtain ⟨c, hc⟩ := h.walks.exists_closed closed
  exact follow_eq_ok.2 ⟨_, hc, h.missing, fun _ => h.isDirectory, rfl⟩

end Tree

/-! ## Files and their directories -/

/-- In a tree that stands at `root`, a path leads to something that is not a directory. -/
structure LeadsToFile (root : Path) (top : Tree) (p : Path) (w : Way) : Prop where
  place : root.IsPlace
  top_isDirectory : top.isDirectory
  reach : top.reach root p = .ok w
  not_isDirectory : ¬(w.end top).isDirectory

/-- The file is found under its name in its directory; and that directory is found, unless the name
is all there is to the path. -/
theorem LeadsToFile.of_placed (h : LeadsToFile root top p w) (H : Path.Placed p n d ks es fs) :
    top.reach root (pathOf ks n) = .ok w ∧
      (ks ≠ [] → ∃ v, top.reach root d = .ok v ∧ (v.end top).isDirectory) := by
  obtain ⟨hroot, htop, hreach, hnot⟩ := h
  obtain ⟨⟨names, closed⟩, hr, hw⟩ := bind_eq_ok.1 hreach
  obtain ⟨a, hwalks, hmissing, hclosed, rfl⟩ := Tree.follow_eq_ok.1 hw
  have hopen : closed = false := by
    rw [Bool.eq_false_iff]
    exact fun h => hnot (hclosed (hwalks.closed_eq h))
  subst hopen
  obtain ⟨ns, m, b, rfl, hm, hb, hlast⟩ := hwalks.exists_last htop fun _ => hnot
  obtain ⟨ls, l, hl, rfl, hne⟩ := exists_segments hr rfl (by simp)
  obtain ⟨ns', hns, -⟩ := routeAt_pathOf hl hl hne hne hr
  obtain rfl : m = Utf8.encode l :=
    List.singleton_inj.1 (List.append_inj_right' (congrArg Route.names hns) rfl)
  have hdot : l ≠ ['.'] := by
    rintro rfl
    exact hm.here rfl
  have hsegments := (segments_pathOf hl).symm.trans H.segments_eq
  -- Nothing stands behind the name, for it would be the last segment.
  obtain rfl : fs = [] := by
    by_contra hfs
    obtain ⟨gs, f, rfl⟩ := fs.eq_nil_or_concat.resolve_left hfs
    rw [List.concat_eq_append, ← List.cons_append, ← List.append_assoc] at hsegments
    obtain rfl := List.singleton_inj.1 (List.append_inj_right' hsegments rfl)
    exact H.behind l (by simp) (Path.isSignificant_iff.2 ⟨hl.nonempty, hdot⟩)
  obtain ⟨rfl, hname⟩ := List.append_inj' hsegments rfl
  obtain rfl := List.singleton_inj.1 hname
  by_cases hks : ks = []
  · obtain rfl := H.bare hks
    rw [List.append_nil] at hreach
    exact ⟨hreach, fun h => absurd hks h⟩
  · obtain ⟨ms, hs, closed, hhere, hr', hq, hd⟩ :=
      exists_routes hroot H.holder hks hl H.between hne hr
    obtain rfl := List.append_inj_left' (congrArg Route.names hr') rfl
    have hholds : Tree.Holds top ms b :=
      ⟨hb.walks.of_append_here hhere, hb.missing, hb.isDirectory⟩
    refine ⟨bind_eq_ok.2 ⟨_, hq, Tree.follow_eq_ok.2 ⟨a, ?_, hmissing, hclosed, rfl⟩⟩, fun _ => ?_⟩
    · exact hholds.walks.concat hb.missing hlast
    · exact ⟨b.way, bind_eq_ok.2 ⟨_, hd, hholds.follow_closed closed⟩, hb.isDirectory⟩

end PublishDesk
