import PublishDesk.FileSystem.Access
import PublishDesk.Proofs.FileSystem.Change

/-!
# Directories created

Creating a directory, with all directories above it that are missing, adds empty directories to a
tree and does nothing else to it (`grown_of_createDirectory`): every file, link and directory is
kept, and no file or link is new (`Grown`).
-/

namespace PublishDesk.Tree

variable {root p : Path} {top t u : Tree} {x : Thing} {ns q : List FileName} {d : Arrival}
  {r : Route}

/-- What stands at the end of names from the top, unless it is a directory. -/
def leaf? (ns : List FileName) (t : Tree) : Option Thing :=
  (t.thing? ns).filter (· ≠ .directory)

theorem leaf?_eq_some_iff : t.leaf? ns = some x ↔ t.thing? ns = some x ∧ x ≠ .directory := by
  simp [leaf?, Option.filter_eq_some_iff]

theorem leaf?_eq_of_thing?_eq (h : t.thing? ns = u.thing? ns) : t.leaf? ns = u.leaf? ns := by
  rw [leaf?, h, leaf?]

/-- A tree that has everything that another one has, and more directories. -/
structure Grown (top t : Tree) : Prop where
  keeps : ∀ q x, top.thing? q = some x → t.thing? q = some x
  adds : ∀ q x, t.thing? q = some x → top.thing? q = some x ∨ x = .directory

namespace Grown

theorem refl (top : Tree) : Grown top top where
  keeps _ _ hx := hx
  adds _ _ hx := .inl hx

theorem trans (h : Grown top t) (h' : Grown t u) : Grown top u where
  keeps q x hx := h'.keeps q x (h.keeps q x hx)
  adds q x hx := by
    rcases h'.adds q x hx with hx | hx
    · exact h.adds q x hx
    · exact .inr hx

/-- The files and links are the same. -/
theorem leaf?_eq (h : Grown top t) (ns : List FileName) : t.leaf? ns = top.leaf? ns := by
  refine Option.ext fun x => ?_
  rw [leaf?_eq_some_iff, leaf?_eq_some_iff]
  constructor
  · rintro ⟨hx, hleaf⟩
    exact ⟨(h.adds ns x hx).resolve_right hleaf, hleaf⟩
  · rintro ⟨hx, hleaf⟩
    exact ⟨h.keeps ns x hx, hleaf⟩

theorem isDirectory (h : Grown top t) (htop : top.isDirectory) : t.isDirectory := by
  have hthing := h.keeps [] _ (congrArg some (isDirectory_iff.1 htop))
  exact isDirectory_iff.2 (Option.some.inj hthing)

/-- A directory is reached as before. -/
theorem holds (h : Grown top t) (hd : Holds top ns d) :
    ∃ d', Holds t ns d' ∧ d'.way.names = d.way.names := by
  obtain ⟨d', hwalks, hnames, hmissing, -⟩ := hd.walks.congr hd.missing hd.isDirectory
    (fun q => h.keeps q _) (.inl fun q target => h.keeps q _) .nil .nil rfl
  exact ⟨d', ⟨hwalks, hmissing, hd.follows.isDirectory_congr (hwalks.follows .nil) hnames
    (fun q => h.keeps q _) hd.isDirectory⟩, hnames⟩

end Grown

/-- An empty directory that is put where nothing was. -/
theorem grown_set (hq : top.thing? q = some .directory) {n : FileName}
    (hnone : top.thing? (q ++ [n]) = none) : Grown top (set (.directory []) (q ++ [n]) top) where
  keeps ms x hx := by
    refine (thing?_set hq (fun hpre => ?_) _).trans hx
    obtain rfl := eq_of_isPrefix (by simp [hnone]) hx hpre
    cases hnone.symm.trans hx
  adds ms x hx := by
    by_cases hpre : q ++ [n] <+: ms
    · right
      obtain ⟨ks, rfl⟩ := hpre
      cases ks with
      | nil =>
        rw [List.append_nil, thing?_set_self hq] at hx
        exact (Option.some.inj hx).symm
      | cons k ks =>
        -- Nothing stands below an empty directory.
        rw [thing?, get?_append, get?_set_self hq] at hx
        cases hx
    · left
      rwa [thing?_set hq hpre] at hx

theorem grown_of_add (h : top.add (.directory []) r = .ok t) : Grown top t := by
  obtain ⟨w, hw, h⟩ := bind_eq_ok.1 h
  obtain ⟨a, hwalks, -, hdir, rfl⟩ := follow_eq_ok.1 hw
  have hfollows := hwalks.follows .nil
  have hend := isDirectory_iff.1 (hdir (hwalks.closed_eq rfl))
  cases hn : r.names.getLast? with
  | none =>
    rw [hn] at h
    cases h
  | some n =>
    rw [hn] at h
    simp only at h
    split at h
    · cases h
    · next hname =>
      split at h
      · cases h
      · obtain rfl := Except.ok.inj h
        simp only [not_or, Bool.not_eq_true, Option.isSome_eq_false_iff,
          Option.isNone_iff_eq_none] at hname
        refine grown_set (hfollows.thing?.trans (congrArg some hend)) ?_
        rw [hfollows.thing?_concat, hname.2.2]
        rfl

theorem eq_of_orThere {e : FileError} (h : orThere ns top e = .ok t) : t = top := by
  unfold orThere at h
  split at h
  · exact (Except.ok.inj h).symm
  · cases h

theorem grown_of_createDirectory (h : top.createDirectory ns = .ok t) : Grown top t := by
  fun_induction createDirectory ns top generalizing t with
  | case1 ns t' hadd =>
    cases h
    exact grown_of_add hadd
  | case2 ns e hadd hgo ih =>
    obtain ⟨made, hmade, h⟩ := bind_eq_ok.1 h
    refine (ih hmade).trans ?_
    cases hlast : made.add (.directory []) ⟨ns, false⟩ with
    | ok t' =>
      rw [hlast] at h
      cases h
      exact grown_of_add hlast
    | error e =>
      rw [hlast] at h
      exact eq_of_orThere h ▸ .refl made
  | case3 ns e hadd hstop => exact eq_of_orThere h ▸ .refl top

theorem grown_of_change (h : change root top (.createDirectory p) = .ok t) : Grown top t := by
  rw [change] at h
  split at h
  · exact Except.ok.inj h ▸ .refl top
  · obtain ⟨r, -, h⟩ := bind_eq_ok.1 h
    exact grown_of_createDirectory h

end PublishDesk.Tree
