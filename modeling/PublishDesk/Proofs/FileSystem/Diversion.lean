import PublishDesk.Proofs.FileSystem.Change

/-!
# Links that lead astray

A file is written at one name of a directory and moved to another one. If the former is a link, the
file is written elsewhere, and the link itself is moved; if the latter was a link, what led through
it is lost. So the new name may lead nowhere afterwards. But if it leads anywhere, it is to the file
that has been written (`end_of_replace`).

The walk to the new name is compared with a walk in the tree as it was before, which knows where the
file is (`Aims`). Both go the same way until the former comes to one of the entries that have
changed. There it ends, or it starts again with the names of the link, and fewer links left.
-/

namespace PublishDesk.Tree

variable {top made : Tree} {ds p q ns ms : List FileName} {k m n : FileName} {w w₀ : Way}
  {content : List UInt8} {closed : Bool} {links : Nat} {a : Arrival} {leaf t : Tree}

/-! ## What has changed -/

/-- A tree in which a file has been written at `p`, and then the entry `m` of the directory `ds`,
which was `leaf`, has been moved to `n`. -/
structure Replaced (made top : Tree) (ds : List FileName) (m n : FileName) (p : List FileName)
    (content : List UInt8) (leaf : Tree) : Prop where
  place : FilePlace made p
  directory : made.thing? ds = some .directory
  source : made.thing? (ds ++ [m]) ≠ some .directory
  target : made.thing? (ds ++ [n]) ≠ some .directory
  moved : top.thing? (ds ++ [n]) = some leaf.thing
  gone : ds ++ [m] ≠ ds ++ [n] → top.thing? (ds ++ [m]) = none
  written : p ≠ ds ++ [m] → p ≠ ds ++ [n] → top.thing? p = some (.file content)
  kept : ∀ q, ¬ds ++ [m] <+: q → ¬ds ++ [n] <+: q → ¬p <+: q → top.thing? q = made.thing? q

/-- Only directories stand above the place of a file. -/
theorem FilePlace.not_isPrefix (h : FilePlace made p) (hms : made.thing? ms ≠ some .directory)
    (hne : ms ≠ p) : ¬ms <+: p := by
  obtain ⟨ds, n, rfl, hds⟩ := h.entry
  intro hpre
  obtain heq | hpre := List.prefix_concat_iff.1 hpre
  · exact hne heq
  · exact hms (eq_of_isPrefix hms hds hpre ▸ hds)

theorem replaced_set (hplace : FilePlace made p) (hds : made.thing? ds = some .directory)
    (hsource : made.thing? (ds ++ [m]) ≠ some .directory)
    (htarget : made.thing? (ds ++ [n]) ≠ some .directory) (content : List UInt8) (leaf : Tree) :
    Replaced made (set leaf (ds ++ [n]) (remove (ds ++ [m]) (set (.file content) p made)))
      ds m n p content leaf := by
  have hbelow (k : FileName) : ¬ds ++ [k] <+: ds := fun h => absurd h.length_le (by simp)
  have hwritten := hplace.thing?_set_of_some hds nofun (.file content)
  have hremoved := (thing?_remove hwritten (hbelow m)).trans hwritten
  constructor
  case place => exact hplace
  case directory => exact hds
  case source => exact hsource
  case target => exact htarget
  case moved => exact thing?_set_self hremoved n leaf
  case gone =>
    intro hne
    have hmn : n ≠ m := fun h => hne (h ▸ rfl)
    rw [thing?_set hremoved (not_concat_isPrefix hmn ds), thing?_remove_self hwritten]
  case written =>
    intro hm hn
    rw [thing?_set hremoved (hplace.not_isPrefix htarget hn.symm),
      thing?_remove hwritten (hplace.not_isPrefix hsource hm.symm), hplace.thing?_set_self]
    rfl
  case kept =>
    intro q hm hn hp
    rw [thing?_set hremoved hn, thing?_remove hwritten hm, hplace.thing?_set hp]

namespace Replaced

variable (H : Replaced made top ds m n p content leaf)
include H

/-- The other entries of a directory are as they were. -/
theorem thing?_concat (h : made.thing? ms = some .directory) (hm : ms ++ [k] ≠ ds ++ [m])
    (hn : ms ++ [k] ≠ ds ++ [n]) (hp : ms ++ [k] ≠ p) :
    top.thing? (ms ++ [k]) = made.thing? (ms ++ [k]) := by
  have hnot {q : List FileName} (hq : made.thing? q ≠ some .directory) (hne : ms ++ [k] ≠ q) :
      ¬q <+: ms ++ [k] := by
    intro hpre
    obtain heq | hpre := List.prefix_concat_iff.1 hpre
    · exact hne heq.symm
    · exact hq (eq_of_isPrefix hq h hpre ▸ h)
  exact H.kept _ (hnot H.source hm) (hnot H.target hn) (hnot H.place.ne_directory hp)

/-- What a directory has under a name has been moved there, or is the file, or was there before. -/
theorem entry_cases (h : made.thing? ms = some .directory) {x : Thing}
    (hx : top.thing? (ms ++ [k]) = some x) :
    ms ++ [k] = ds ++ [n] ∧ x = leaf.thing ∨ ms ++ [k] ≠ ds ++ [n] ∧
      (x = .file content ∨ ms ++ [k] ≠ p ∧ made.thing? (ms ++ [k]) = some x) := by
  by_cases htarget : ms ++ [k] = ds ++ [n]
  · exact .inl ⟨htarget, Option.some.inj (hx.symm.trans (htarget ▸ H.moved))⟩
  · refine .inr ⟨htarget, ?_⟩
    have hsource : ms ++ [k] ≠ ds ++ [m] := fun heq => by
      rw [heq, H.gone (heq ▸ htarget)] at hx
      cases hx
    by_cases hplace : ms ++ [k] = p
    · rw [hplace, H.written (hplace ▸ hsource) (hplace ▸ htarget)] at hx
      exact .inl (Option.some.inj hx).symm
    · exact .inr ⟨hplace, (H.thing?_concat h hsource htarget hplace).symm.trans hx⟩

/-- Nothing changes but the three entries. -/
theorem thing?_of_ne (hleaf : leaf.thing ≠ .directory) (hmn : m ≠ n) (hm : q ≠ ds ++ [m])
    (hn : q ≠ ds ++ [n]) (hp : q ≠ p) : top.thing? q = made.thing? q := by
  have hgone := H.gone (concat_ne_concat hmn)
  have hmoved : top.thing? (ds ++ [n]) ≠ some .directory := by
    rw [H.moved]
    exact fun h => hleaf (Option.some.inj h)
  have hwritten : top.thing? p ≠ some .directory := by
    by_cases hpm : p = ds ++ [m]
    · rw [hpm, hgone]
      nofun
    · by_cases hpn : p = ds ++ [n]
      · exact hpn ▸ hmoved
      · rw [H.written hpm hpn]
        nofun
  by_cases hpre : ds ++ [m] <+: q
  · rw [thing?_eq_none_of_isPrefix H.source hpre hm.symm,
      thing?_eq_none_of_isPrefix (by rw [hgone]; nofun) hpre hm.symm]
  · by_cases hpre' : ds ++ [n] <+: q
    · rw [thing?_eq_none_of_isPrefix H.target hpre' hn.symm,
        thing?_eq_none_of_isPrefix hmoved hpre' hn.symm]
    · by_cases hpre'' : p <+: q
      · rw [thing?_eq_none_of_isPrefix H.place.ne_directory hpre'' hp.symm,
          thing?_eq_none_of_isPrefix hwritten hpre'' hp.symm]
      · exact H.kept q hpre hpre' hpre''

end Replaced

/-! ## Walks as a guide -/

/-- A walk along some of the names comes to the place `p`, or to the directory `ds` with the name
`n` ahead. -/
inductive Aims (top : Tree) (ds : List FileName) (n : FileName) (p : List FileName) (w : Way)
    (ms : List FileName) : Prop
  | intro {links : Nat} {closed : Bool} {ns rest : List FileName} {a : Arrival}
    (h : Walks top true links w closed ns a) (hms : ns ++ rest = ms)
    (haim : a.names = p ∨ a.missing = none ∧ a.way.names = ds ∧ rest.head? = some n)

namespace Aims

/-- As long as it has not come there, it takes the next name. -/
theorem exists_cons (h : Aims made ds n p w (k :: ms)) (hplace : FilePlace made p)
    (hdir : made.thing? w.names = some .directory) (hne : w.names ++ [k] ≠ ds ++ [n]) :
    ∃ links closed ns rest a, Walks made true links w closed (k :: ns) a ∧ ns ++ rest = ms ∧
      (a.names = p ∨ a.missing = none ∧ a.way.names = ds ∧ rest.head? = some n) := by
  obtain ⟨h, hms, haim⟩ := h
  rename_i ns rest a
  cases ns with
  | cons j ns =>
    cases hms
    exact ⟨_, _, ns, rest, a, h, rfl, haim⟩
  | nil =>
    cases h
    cases hms
    obtain hp | ⟨-, hds, hhead⟩ := haim
    · rw [Arrival.names_of_none] at hp
      exact absurd (hp ▸ hdir) hplace.ne_directory
    · exact absurd (hds ▸ Option.some.inj hhead ▸ rfl) hne

theorem not_nil (hplace : FilePlace made p) (hdir : made.thing? w.names = some .directory) :
    ¬Aims made ds n p w [] := by
  rintro ⟨h, hms, haim⟩
  obtain ⟨rfl, rfl⟩ := List.append_eq_nil_iff.1 hms
  cases h
  obtain hp | ⟨-, -, hhead⟩ := haim
  · rw [Arrival.names_of_none] at hp
    exact hplace.ne_directory (hp ▸ hdir)
  · cases hhead

theorem concat_ne (hn : IsName n) (hk : ¬IsName k) : w.names ++ [k] ≠ ds ++ [n] := by
  intro h
  rw [List.singleton_inj.1 (List.append_inj_right' h rfl)] at hk
  exact hk hn

theorem here (h : Aims made ds n p w (Route.here :: ms)) (hplace : FilePlace made p)
    (hdir : made.thing? w.names = some .directory) (hn : IsName n) : Aims made ds n p w ms := by
  obtain ⟨_, _, ns, rest, a, h, hms, haim⟩ :=
    h.exists_cons hplace hdir (concat_ne hn fun h => h.here rfl)
  generalize hk : Route.here = k at h
  cases h with
  | here hdir h => exact ⟨h, hms, haim⟩
  | above => cases hk
  | missing hname => exact absurd hk.symm hname.here
  | stay hname => exact absurd hk.symm hname.here
  | follow hname => exact absurd hk.symm hname.here
  | enter hname => exact absurd hk.symm hname.here

theorem above (h : Aims made ds n p w (Route.above :: ms)) (hplace : FilePlace made p)
    (hdir : made.thing? w.names = some .directory) (hn : IsName n) :
    ∃ e up, w = e :: up ∧ Aims made ds n p up ms := by
  obtain ⟨_, _, ns, rest, a, h, hms, haim⟩ :=
    h.exists_cons hplace hdir (concat_ne hn fun h => h.above rfl)
  generalize hk : Route.above = k at h
  cases h with
  | here => cases hk
  | @above _ e up _ _ _ hdir h => exact ⟨e, up, rfl, h, hms, haim⟩
  | missing hname => exact absurd hk.symm hname.above
  | stay hname => exact absurd hk.symm hname.above
  | follow hname => exact absurd hk.symm hname.above
  | enter hname => exact absurd hk.symm hname.above

theorem link (h : Aims made ds n p w (k :: ms)) (hplace : FilePlace made p)
    (hdir : made.thing? w.names = some .directory) (hne : w.names ++ [k] ≠ ds ++ [n])
    (hk : IsName k) {target : List UInt8}
    (hchild : (w.end made).child? k = some (.link target)) :
    Aims made ds n p w ((Route.ofBytes target).names ++ ms) := by
  obtain ⟨_, _, ns, rest, a, hwalk, rfl, haim⟩ := h.exists_cons hplace hdir hne
  cases hwalk with
  | here => exact absurd rfl hk.here
  | above => exact absurd rfl hk.above
  | missing hname hdir hnone => cases hnone.symm.trans hchild
  | stay hname hchild hlast => cases hlast
  | follow hname hchild' hgo hbelow h =>
    cases hchild.symm.trans hchild'
    exact ⟨h, List.append_assoc .., haim⟩
  | enter hname hchild' hlink =>
    exact absurd (Option.some.inj (hchild'.symm.trans hchild)) (hlink _)

/-- What is not a link is a directory, for the walk goes on from there. -/
theorem enter (h : Aims made ds n p w (k :: ms)) (hplace : FilePlace made p)
    (hds : made.thing? ds = some .directory) (hw : Follows made w)
    (hdir : made.thing? w.names = some .directory) (hne : w.names ++ [k] ≠ ds ++ [n])
    (hp : w.names ++ [k] ≠ p) (hk : IsName k) (hchild : (w.end made).child? k = some t)
    (hlink : ∀ target, t ≠ .link target) :
    t.isDirectory ∧ Aims made ds n p ((k, t) :: w) ms := by
  obtain ⟨_, _, ns, rest, a, hwalk, rfl, haim⟩ := h.exists_cons hplace hdir hne
  cases hwalk with
  | here => exact absurd rfl hk.here
  | above => exact absurd rfl hk.above
  | missing hname hdir hnone => cases hnone.symm.trans hchild
  | stay hname hchild hlast => cases hlast
  | follow hname hchild' =>
    exact absurd (Option.some.inj (hchild.symm.trans hchild')) (hlink _)
  | enter hname hchild' hlink' h =>
    cases hchild.symm.trans hchild'
    refine ⟨?_, h, rfl, haim⟩
    by_contra ht
    obtain ⟨rfl, rfl⟩ := h.eq_nil ht
    rw [Arrival.names_of_none, names_cons] at haim
    obtain hp' | ⟨-, hds', -⟩ := haim
    · exact hp hp'
    · rw [← hds', ← names_cons k t, (hw.cons hchild).thing?] at hds
      exact ht (isDirectory_iff.2 (Option.some.inj hds))

end Aims

/-! ## Walks in the new tree -/

/-- What has been moved is the file, or a link that led to its place. -/
inductive LeadsTo (made : Tree) (ds : List FileName) (m : FileName) (p : List FileName)
    (content : List UInt8) : Tree → Prop
  | file (hp : p = ds ++ [m]) : LeadsTo made ds m p content (.file content)
  | link {target : List UInt8} {links : Nat} {closed : Bool} {w : Way} {a : Arrival}
    (hlink : made.thing? (ds ++ [m]) = some (.link target)) (hw : Follows made w)
    (hds : w.names = ds) (h : Walks made true links w closed (Route.ofBytes target).names a)
    (hp : a.names = p) : LeadsTo made ds m p content (.link target)

theorem LeadsTo.ne_directory (h : LeadsTo made ds m p content leaf) : leaf.thing ≠ .directory := by
  cases h <;> nofun

/-- A walk that comes to the file ends there. -/
theorem Walks.end_eq_file (h : Walks top true links ((k, t) :: w) closed ms a)
    (ht : t.thing = .file content) : a.way.end top = .file content := by
  cases t with
  | file c =>
    cases ht
    obtain ⟨-, rfl⟩ := h.eq_nil nofun
    rfl
  | link target => cases ht
  | directory es => cases ht

/-- Whatever a walk comes to that aims at the file or at the entry, it is the file. -/
theorem Replaced.end_eq (H : Replaced made top ds m n p content leaf)
    (hleaf : LeadsTo made ds m p content leaf) (hn : IsName n)
    (h : Walks top true links w closed ms a) (hmissing : a.missing = none) (hw : Follows top w)
    (hw₀ : Follows made w₀) (hnames : w₀.names = w.names)
    (hdir : made.thing? w₀.names = some .directory) (haims : Aims made ds n p w₀ ms) :
    a.way.end top = .file content := by
  induction h generalizing w₀ with
  | done => exact absurd haims (Aims.not_nil H.place hdir)
  | here h₀ h ih => exact ih hmissing hw hw₀ hnames hdir (haims.here H.place hdir hn)
  | above h₀ h ih =>
    obtain ⟨e, up, rfl, haims'⟩ := haims.above H.place hdir hn
    cases hw with
    | cons hw hchild =>
      cases hw₀ with
      | cons hw₀ hchild₀ =>
        rw [names_cons, names_cons] at hnames
        have hup := hw₀.thing?.trans
          (congrArg some (isDirectory_iff.1 (isDirectory_of_child? hchild₀)))
        exact ih hmissing hw hw₀ (List.append_inj_left' hnames rfl) hup haims'
  | missing => cases hmissing
  | stay hname hchild hlast => cases hlast
  | follow hname hchild hgo hbelow h ih =>
    have hthing := hw.thing?_concat _ ▸ congrArg (Option.map thing) hchild
    rw [← hnames] at hthing
    obtain ⟨hentry, hlink⟩ | ⟨hentry, hfile | ⟨-, hold⟩⟩ := H.entry_cases hdir hthing
    · -- The link that has been moved: the walk starts again, with fewer links left.
      cases hleaf with
      | file => cases hlink
      | link _ hw₁ hds h₁ hp =>
        cases hlink
        have hnames₁ := hds.trans (List.append_inj_left' hentry rfl).symm
        exact ih hmissing hw hw₁ (hnames₁.trans hnames) (hnames₁ ▸ hdir) ⟨h₁, rfl, .inl hp⟩
    · cases hfile
    · rw [hw₀.thing?_concat] at hold
      obtain ⟨t₀, hchild₀, ht₀⟩ := Option.map_eq_some_iff.1 hold
      obtain rfl := thing_eq_link.1 ht₀
      exact ih hmissing hw hw₀ hnames hdir (haims.link H.place hdir hentry hname hchild₀)
  | enter hname hchild hlink h ih =>
    have hthing := hw.thing?_concat _ ▸ congrArg (Option.map thing) hchild
    rw [← hnames] at hthing
    obtain ⟨-, hmoved⟩ | ⟨hentry, hfile | ⟨hplace, hold⟩⟩ := H.entry_cases hdir hthing
    · cases hleaf with
      | file => exact h.end_eq_file hmoved
      | link => exact absurd (thing_eq_link.1 hmoved) (hlink _)
    · exact h.end_eq_file hfile
    · rw [hw₀.thing?_concat] at hold
      obtain ⟨t₀, hchild₀, ht₀⟩ := Option.map_eq_some_iff.1 hold
      have hlink₀ (target : List UInt8) (ht : t₀ = .link target) : False :=
        hlink target (thing_eq_link.1 (ht₀.symm.trans (thing_eq_link.2 ht)))
      obtain ⟨hdir₀, haims'⟩ :=
        haims.enter H.place H.directory hw₀ hdir hentry hplace hname hchild₀ hlink₀
      have hdir' := (hw₀.cons hchild₀).thing?.trans (congrArg some (isDirectory_iff.1 hdir₀))
      exact ih hmissing (hw.cons hchild) (hw₀.cons hchild₀)
        (by rw [names_cons, names_cons, hnames]) hdir' haims'

/-! ## Calls -/

/-- What a file that is written and moved makes of a tree. -/
theorem exists_replaced {written : Tree} (hhere : m ≠ Route.here) (habove : m ≠ Route.above)
    (hwritten : made.write ⟨ns ++ [m], false⟩ content = .ok written)
    (hmoved : written.rename ⟨ns ++ [m], false⟩ ⟨ns ++ [n], false⟩ = .ok top) :
    ∃ d p leaf, Holds made ns d ∧ Writes made d m p ∧ IsName n ∧
      Replaced made top d.way.names m n p content leaf ∧
      LeadsTo made d.way.names m p content leaf := by
  obtain ⟨d, p, hd, H, rfl⟩ := exists_writes hwritten hhere habove
  obtain ⟨d₁, h₁, hnames, -⟩ := hd.write H.place content
  have hall {leaf : Tree} (hsource : made.thing? (d.way.names ++ [m]) ≠ some .directory)
      (hfollow : follow (set (.file content) p made) false ⟨ns ++ [m], false⟩ =
        .ok ((m, leaf) :: d₁.way)) :
      IsName n ∧ Replaced made top d.way.names m n p content leaf := by
    obtain ⟨hname, hplain, rfl⟩ := h₁.of_rename hfollow hmoved
    rw [hnames] at hplain ⊢
    refine ⟨hname, replaced_set H.place hd.thing? hsource (fun htarget => hplain ?_) _ _⟩
    exact H.place.thing?_set_of_some htarget nofun _
  obtain hp | ⟨target, links, closed, a, hlink, hwalks, hp⟩ := H.eq_or_link
  · have hfile : (set (.file content) p made).thing? (d₁.way.names ++ [m]) =
        some (.file content) := by
      rw [hnames, ← hp]
      exact H.place.thing?_set_self _
    obtain ⟨hname, hreplaced⟩ :=
      hall (hp ▸ H.place.ne_directory) (h₁.follow_file H.isName hfile false)
    exact ⟨d, p, _, hd, H, hname, hreplaced, .file hp⟩
  · have hlink₁ : (set (.file content) p made).thing? (d₁.way.names ++ [m]) =
        some (.link target) :=
      hnames ▸ H.place.thing?_set_of_some hlink nofun _
    obtain ⟨hname, hreplaced⟩ := hall (by simp [hlink]) (h₁.follow_link H.isName hlink₁)
    exact ⟨d, p, _, hd, H, hname, hreplaced, .link hlink hd.follows rfl hwalks hp⟩

/-- If the new name of a file that has been written and moved leads anywhere, it leads to the
file. -/
theorem end_of_replace {written : Tree} (hhere : m ≠ Route.here) (habove : m ≠ Route.above)
    (hwritten : made.write ⟨ns ++ [m], false⟩ content = .ok written)
    (hmoved : written.rename ⟨ns ++ [m], false⟩ ⟨ns ++ [n], false⟩ = .ok top)
    (h : top.follow true ⟨ns ++ [n], false⟩ = .ok w) : w.end top = .file content := by
  obtain ⟨d, p, leaf, hd, -, hname, H, hleaf⟩ := exists_replaced hhere habove hwritten hmoved
  obtain ⟨a, hwalks, hmissing, -, rfl⟩ := follow_eq_ok.1 h
  exact H.end_eq hleaf hname hwalks hmissing .nil .nil rfl (thing?_nil_of hd.thing?)
    ⟨hd.walks, rfl, .inr ⟨hd.missing, rfl, rfl⟩⟩

end PublishDesk.Tree
