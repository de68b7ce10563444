import PublishDesk.FileSystem.Access
import PublishDesk.Proofs.FileSystem.Diversion

/-!
# Entries of directories

A path stands for an entry of a directory (`entry?`), whether or not something is there. What can be
read at the path is what the entry holds, unless a link stands there (`exists_holds_of_read?`). And
what is written to a path is written to an entry with a name of its own
(`exists_last_of_write`).
-/

namespace PublishDesk.Tree

variable {root path : Path} {top made t : Tree} {content : List UInt8} {ns ds p q : List FileName}
  {m n : FileName} {d : Arrival} {r : Route}

/-- The names from the top of the entry that a path stands for. Links on the way to its directory
are followed; one that stands at the entry is not. -/
def entry? (root : Path) (top : Tree) (path : Path) : Option (List FileName) := do
  let r ← (routeAt root path).toOption
  let w ← (top.follow true r.parent).toOption
  return w.names ++ [← r.names.getLast?]

/-- What can be read at a path. -/
def read? (root : Path) (top : Tree) (path : Path) : Option (List UInt8) :=
  (routeAt root path >>= fun r => top.content r).toOption

theorem exists_of_entry? (h : top.entry? root path = some q) :
    ∃ r ns n, routeAt root path = .ok r ∧ r.names.getLast? = some n ∧ q = ns ++ [n] := by
  obtain ⟨r, hr, h⟩ := Option.bind_eq_some_iff.1 h
  obtain ⟨w, -, h⟩ := Option.bind_eq_some_iff.1 h
  obtain ⟨n, hn, h⟩ := Option.bind_eq_some_iff.1 h
  exact ⟨r, w.names, n, toOption_eq_some_iff.1 hr, hn, (Option.some.inj h).symm⟩

theorem Holds.entry? (h : Holds top ns d) (hr : routeAt root path = .ok ⟨ns ++ [n], false⟩) :
    top.entry? root path = some (d.way.names ++ [n]) := by
  have hparent : Route.parent ⟨ns ++ [n], false⟩ = ⟨ns, true⟩ := by simp [Route.parent]
  simp [Tree.entry?, hr, hparent, h.follow, Except.toOption]

theorem read?_of_follow {w : Way} (hr : routeAt root path = .ok r) (hw : top.follow true r = .ok w)
    (hend : w.end top = .file content) : top.read? root path = some content := by
  refine toOption_eq_some_iff.2 (bind_eq_ok.2 ⟨r, hr, bind_eq_ok.2 ⟨w, hw, ?_⟩⟩)
  rw [hend]
  rfl

theorem Holds.read? (h : Holds top ns d) (hr : routeAt root path = .ok ⟨ns ++ [n], false⟩)
    (hn : IsName n) (hfile : top.thing? (d.way.names ++ [n]) = some (.file content)) :
    top.read? root path = some content :=
  read?_of_follow hr (h.follow_file hn hfile true) rfl

/-! ## The last step of a walk -/

/-- A walk does not end at a name that every directory has, unless it ends in a directory. -/
theorem Walks.exists_last {last closed : Bool} {a : Arrival}
    (h : Walks top last maxLinks [] closed ns a) (htop : top.isDirectory)
    (ha : a.missing = none → ¬(a.way.end top).isDirectory) :
    ∃ ks n d, ns = ks ++ [n] ∧ IsName n ∧ Holds top ks d ∧
      Walks top last d.links d.way closed [n] a := by
  obtain rfl | ⟨ks, n, rfl⟩ := ns.eq_nil_or_concat
  · cases h
    exact absurd htop (ha rfl)
  · rw [List.concat_eq_append] at h ⊢
    obtain ⟨d, hd, hlast⟩ := Holds.exists_of_walks h
    refine ⟨ks, n, d, rfl, ?_, hd, hlast⟩
    have hfollows := hd.follows
    obtain ⟨way, missing, closed, links⟩ := d
    cases hlast with
    | here hdir h =>
      cases h
      exact absurd hdir (ha rfl)
    | above hdir h =>
      cases h
      cases hfollows with
      | cons _ hchild => exact absurd (isDirectory_of_child? hchild) (ha rfl)
    | missing hname => exact hname
    | stay hname => exact hname
    | follow hname => exact hname
    | enter hname => exact hname

/-- What can be read at a path is in a file at the entry of the path, or a link stands there. -/
theorem exists_holds_of_read? (htop : top.isDirectory) (h : top.read? root path = some content) :
    ∃ ns n d, routeAt root path = .ok ⟨ns ++ [n], false⟩ ∧ IsName n ∧ Holds top ns d ∧
      (top.thing? (d.way.names ++ [n]) = some (.file content) ∨
        ∃ target, top.thing? (d.way.names ++ [n]) = some (.link target)) := by
  obtain ⟨⟨names, closed⟩, hr, h⟩ := bind_eq_ok.1 (toOption_eq_some_iff.1 h)
  obtain ⟨w, hw, h⟩ := bind_eq_ok.1 h
  obtain ⟨a, hwalks, hmissing, hclosed, rfl⟩ := follow_eq_ok.1 hw
  have hend : a.way.end top = .file content := by
    cases hend : a.way.end top with
    | file c =>
      rw [hend] at h
      cases h
      rfl
    | link target =>
      rw [hend] at h
      cases h
    | directory es =>
      rw [hend] at h
      cases h
  have hnot : ¬(a.way.end top).isDirectory := by
    rw [hend]
    exact Bool.false_ne_true
  have hopen : closed = false := by
    rw [Bool.eq_false_iff]
    exact fun h => hnot (hclosed (hwalks.closed_eq h))
  obtain ⟨ns, n, d, rfl, hn, hd, hlast⟩ := hwalks.exists_last htop fun _ => hnot
  refine ⟨ns, n, d, hopen ▸ hr, hn, hd, ?_⟩
  rw [hd.follows.thing?_concat]
  obtain ⟨way, missing, closed, links⟩ := d
  cases hlast with
  | here => exact absurd rfl hn.here
  | above => exact absurd rfl hn.above
  | missing => cases hmissing
  | stay hname hchild hlast => cases hlast
  | follow hname hchild =>
    rw [hchild]
    exact .inr ⟨_, rfl⟩
  | @enter _ _ _ _ _ t _ hname hchild hlink h =>
    cases h
    obtain rfl : t = .file content := hend
    rw [hchild]
    exact .inl rfl

/-! ## Writing -/

theorem exists_last_of_write (htop : top.isDirectory) (h : top.write r content = .ok t) :
    ∃ ns m, r = ⟨ns ++ [m], false⟩ ∧ IsName m := by
  obtain ⟨names, closed⟩ := r
  obtain rfl : closed = false := closed_of_write h
  obtain ⟨a, harrive, h⟩ := bind_eq_ok.1 h
  have ha (hmissing : a.missing = none) : ¬(a.way.end top).isDirectory := by
    intro hend
    rw [hmissing, hend, Option.isNone_none, Bool.and_self, Bool.or_true] at h
    cases h
  obtain ⟨ns, m, -, rfl, hm, -⟩ := (walks_of_walk harrive).exists_last htop ha
  exact ⟨ns, m, rfl, hm⟩

/-- A file that is written changes nothing else. -/
theorem FilePlace.thing?_set_of_ne (h : FilePlace top p) (hq : q ≠ p) (content : List UInt8) :
    (set (.file content) p top).thing? q = top.thing? q := by
  by_cases hpre : p <+: q
  · have hfile : (set (.file content) p top).thing? p ≠ some .directory := by
      rw [h.thing?_set_self]
      exact nofun
    rw [thing?_eq_none_of_isPrefix hfile hpre hq.symm,
      thing?_eq_none_of_isPrefix h.ne_directory hpre hq.symm]
  · exact h.thing?_set hpre _

/-- A file that is written to one entry of a directory is moved to another one. -/
theorem Holds.replaced (h : Holds made ns d) (hm : IsName m)
    (hplace : FilePlace made (d.way.names ++ [m]))
    (hmoved : (set (.file content) (d.way.names ++ [m]) made).rename ⟨ns ++ [m], false⟩
      ⟨ns ++ [n], false⟩ = .ok t) :
    Replaced made t d.way.names m n (d.way.names ++ [m]) content (.file content) := by
  obtain ⟨d₁, h₁, hnames, -⟩ := h.write hplace content
  have hfile : (set (.file content) (d.way.names ++ [m]) made).thing? (d₁.way.names ++ [m]) =
      some (.file content) := by
    rw [hnames]
    exact hplace.thing?_set_self _
  obtain ⟨-, hplain, rfl⟩ := h₁.of_rename (h₁.follow_file hm hfile false) hmoved
  rw [hnames] at hplain ⊢
  exact replaced_set hplace h.thing? hplace.ne_directory
    (fun htarget => hplain (hplace.thing?_set_of_some htarget nofun _)) _ _

end PublishDesk.Tree
