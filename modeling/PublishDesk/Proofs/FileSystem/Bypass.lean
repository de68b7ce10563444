import PublishDesk.Proofs.FileSystem.Diversion

/-!
# Files written past an entry

A file is written at one name of a directory and moved to another one. It is found there if and only
if it was written past the entry of that name: the name that it was written at leads to some other
place, and does so even if that entry is taken away (`exists_follow_iff`).

Walks before and after are compared in trees that have the same directories and links, but for one
link that leads to no directory (`Keeps`). A walk that comes to such a link follows it to its end.
So, if it has come there by that link, it begins again, with fewer links left
(`Keeps.walks_or`).
-/

namespace PublishDesk.Tree

variable {t u made top leaf : Tree} {ds ns p q : List FileName} {k m n : FileName}
  {w w' : Way} {closed : Bool} {links : Nat} {a d : Arrival} {content target : List UInt8}

/-! ## What a walk leads to -/

theorem Walks.child?_of_missing (h : Walks t true links w closed ns a) (hn : a.missing = some n) :
    (a.way.end t).child? n = none := by
  induction h with
  | done => cases hn
  | here hdir h ih => exact ih hn
  | above hdir h ih => exact ih hn
  | missing hname hdir hchild =>
    cases hn
    exact hchild
  | stay hname hchild hlast => cases hlast
  | follow hname hchild hgo hbelow h ih => exact ih hn
  | enter hname hchild hlink h ih => exact ih hn

/-- A walk to something that is there misses no name. -/
theorem Walks.missing_eq_none {x : Thing} (h : Walks t true links w closed ns a)
    (hw : Follows t w) (hx : t.thing? a.names = some x) : a.missing = none := by
  cases hn : a.missing with
  | none => rfl
  | some n =>
    rw [Arrival.names, hn, Option.toList_some, (h.follows hw).thing?_concat,
      h.child?_of_missing hn] at hx
    cases hx

theorem Arrival.names_eq_way (h : a.missing = none) : a.names = a.way.names := by
  rw [Arrival.names, h, Option.toList_none, List.append_nil]

/-- A walk arrives at the place of a file, whether or not one is there. -/
theorem FilePlace.walks (hp : FilePlace t (ds ++ [n])) (hw : Follows t w) (hds : w.names = ds)
    (hdir : (w.end t).isDirectory) (hn : IsName n) (links : Nat) (closed : Bool) :
    ∃ a, Walks t true links w closed [n] a ∧ a.names = ds ++ [n] ∧ a.closed = closed ∧
      a.links = links := by
  subst hds
  cases hchild : (w.end t).child? n with
  | none => exact ⟨_, .missing hn hdir hchild, rfl, rfl, rfl⟩
  | some v =>
    have hthing := hw.thing?_concat n
    rw [hchild] at hthing
    obtain ⟨content, hcontent⟩ := hp.file _ hthing
    have hlink (target : List UInt8) : v ≠ .link target := by
      rintro rfl
      cases hcontent
    refine ⟨_, .enter hn hchild hlink .done, ?_, rfl, rfl⟩
    rw [Arrival.names_of_none, names_cons]

/-- A walk to a link follows it. -/
theorem Walks.exists_link (h : Walks t true links w closed [n] a) (hw : Follows t w)
    (hn : IsName n) (hlink : t.thing? (w.names ++ [n]) = some (.link target)) :
    ∃ j, links = j + 1 ∧ target.head? ≠ some Route.slash ∧ Walks t true j w
      (closed || (Route.ofBytes target).closed) (Route.ofBytes target).names a := by
  rw [hw.thing?_concat] at hlink
  obtain ⟨v, hv, hvlink⟩ := Option.map_eq_some_iff.1 hlink
  obtain rfl := thing_eq_link.1 hvlink
  cases h with
  | here => exact absurd rfl hn.here
  | above => exact absurd rfl hn.above
  | missing hname hdir hchild => cases hchild.symm.trans hv
  | stay hname hchild hlast => cases hlast
  | follow hname hchild hgo hbelow h =>
    cases hchild.symm.trans hv
    rw [List.append_nil] at h
    exact ⟨_, rfl, hbelow, h⟩
  | enter hname hchild hlink' => exact absurd (Option.some.inj (hchild.symm.trans hv)) (hlink' _)

theorem Walks.of_link {j : Nat} (hw : Follows t w) (hn : IsName n)
    (hlink : t.thing? (w.names ++ [n]) = some (.link target))
    (hbelow : target.head? ≠ some Route.slash)
    (h : Walks t true j w
      (closed || (Route.ofBytes target).closed) (Route.ofBytes target).names a) :
    Walks t true (j + 1) w closed [n] a := by
  rw [hw.thing?_concat] at hlink
  obtain ⟨v, hv, hvlink⟩ := Option.map_eq_some_iff.1 hlink
  obtain rfl := thing_eq_link.1 hvlink
  refine .follow hn hv (fun _ => .inl rfl) hbelow ?_
  rw [List.append_nil]
  exact h

/-! ## Trees with the same directories -/

/-- The directories of a tree are those of another one, and so are its links, except for one in the
directory `ds` that leads to no directory. -/
structure Keeps (t u : Tree) (ds : List FileName) (k : FileName) : Prop where
  directory : ∀ q, t.thing? q = some .directory → u.thing? q = some .directory
  link : ∀ q target, q ≠ ds ++ [k] → t.thing? q = some (.link target) →
    u.thing? q = some (.link target)
  blind : ∀ {target links closed w a}, t.thing? (ds ++ [k]) = some (.link target) → Follows t w →
    w.names = ds → Walks t true links w closed (Route.ofBytes target).names a →
    a.missing = none → ¬(a.way.end t).isDirectory

/-- The walk that goes on from the link with fewer links left, where a walk begins again. -/
structure Again (t : Tree) (ds : List FileName) (k : FileName) (links : Nat) (a : Arrival) :
    Prop where
  intro ::
  exists_walks : ∃ target j v c, t.thing? (ds ++ [k]) = some (.link target) ∧ j < links ∧
    Follows t v ∧ v.names = ds ∧ Walks t true j v c (Route.ofBytes target).names a

namespace Keeps

variable (K : Keeps t u ds k)
include K

/-- A walk to a directory, or to the place of a file, goes the same way in both trees, or it ends
with the walk from the link. -/
theorem walks_or (h : Walks t true links w closed ns a)
    (ha : a.missing = none ∧ (a.way.end t).isDirectory ∨ FilePlace u a.names)
    (hw : Follows t w) (hw' : Follows u w') (hnames : w'.names = w.names) :
    (∃ b, Walks u true links w' closed ns b ∧ b.names = a.names ∧ b.closed = a.closed ∧
      b.links = a.links) ∨ Again t ds k links a := by
  induction h generalizing w' with
  | done =>
    refine .inl ⟨_, .done, ?_, rfl, rfl⟩
    rw [Arrival.names_of_none, Arrival.names_of_none, hnames]
  | here hdir h ih =>
    rcases ih ha hw hw' hnames with ⟨b, hb, heq⟩ | hagain
    · exact .inl ⟨b, .here (hw.isDirectory_congr hw' hnames K.directory hdir) hb, heq⟩
    · exact .inr hagain
  | above hdir h ih =>
    have hdir' := hw.isDirectory_congr hw' hnames K.directory hdir
    cases hw with
    | cons hw hchild =>
      cases hw' with
      | nil => exact absurd (congrArg List.length hnames) (by simp [Way.names])
      | cons hw' hchild' =>
        rw [names_cons, names_cons] at hnames
        rcases ih ha hw hw' (List.append_inj_left' hnames rfl) with ⟨b, hb, heq⟩ | hagain
        · exact .inl ⟨b, .above hdir' hb, heq⟩
        · exact .inr hagain
  | @missing links w closed n hname hdir hchild =>
    have hplace : FilePlace u (w.names ++ [n]) := by
      rcases ha with ⟨h, -⟩ | h
      · cases h
      · exact h
    have hdir' := hw.isDirectory_congr hw' hnames K.directory hdir
    exact .inl (hplace.walks hw' hnames hdir' hname links closed)
  | stay hname hchild hlast => cases hlast
  | @follow links w closed n ns target a hname hchild hgo hbelow h ih =>
    have hthing : t.thing? (w.names ++ [n]) = some (.link target) := by
      rw [hw.thing?_concat, hchild]
      rfl
    by_cases hk : w.names ++ [n] = ds ++ [k]
    · have hds : w.names = ds := List.append_inj_left' hk rfl
      rw [hk] at hthing
      cases ns with
      | nil =>
        rw [List.append_nil] at h
        exact .inr ⟨target, links, w, _, hthing, Nat.lt_succ_self links, hw, hds, h⟩
      | cons n' ns =>
        -- The walk would go on, but the link leads to no directory.
        obtain ⟨d, hd, hmissing, hnext⟩ := h.exists_directory
        have hend := K.blind hthing hw hds hd hmissing
        exact absurd (hnext.eq_nil hend).1 (List.cons_ne_nil n' ns)
    · obtain ⟨t', hchild', ht'⟩ := hw.exists_child hw' hnames hchild (K.link _ _ hk)
      obtain rfl := thing_eq_link.1 ht'
      rcases ih ha hw hw' hnames with ⟨b, hb, heq⟩ | ⟨target', j, v, c, hlink, hj, hagain⟩
      · exact .inl ⟨b, .follow hname hchild' hgo hbelow hb, heq⟩
      · exact .inr ⟨target', j, v, c, hlink, Nat.lt_succ_of_lt hj, hagain⟩
  | @enter links w closed n ns v a hname hchild hlink h ih =>
    by_cases hv : v.isDirectory
    · obtain ⟨v', hchild', hthing⟩ :=
        hw.exists_child hw' hnames hchild (isDirectory_iff.1 hv ▸ K.directory _)
      have hlink' (target : List UInt8) : v' ≠ .link target := by
        rintro rfl
        rw [isDirectory_iff.1 hv] at hthing
        cases hthing
      have hnames' : Way.names ((n, v') :: w') = Way.names ((n, v) :: w) := by
        rw [names_cons, names_cons, hnames]
      rcases ih ha (hw.cons hchild) (hw'.cons hchild') hnames' with ⟨b, hb, heq⟩ | hagain
      · exact .inl ⟨b, .enter hname hchild' hlink' hb, heq⟩
      · exact .inr hagain
    · obtain ⟨rfl, rfl⟩ := h.eq_nil hv
      have heq : Arrival.names ⟨(n, v) :: w, none, closed, links⟩ = w.names ++ [n] := by
        rw [Arrival.names_of_none, names_cons]
      have hplace := ha.resolve_left fun h => hv h.2
      rw [heq] at hplace ⊢
      have hdir' := hw.isDirectory_congr hw' hnames K.directory (isDirectory_of_child? hchild)
      exact .inl (hplace.walks hw' hnames hdir' hname links closed)

/-- The same directories are found. -/
theorem holds (h : Holds t ns d) :
    ∃ d', Holds u ns d' ∧ d'.way.names = d.way.names ∧ d'.links = d.links := by
  have hnames := Arrival.names_eq_way h.missing
  rcases K.walks_or h.walks (.inl ⟨h.missing, h.isDirectory⟩) .nil .nil rfl with
    ⟨b, hb, heq, -, hlinks⟩ | ⟨target, j, v, c, hlink, -, hv, hds, hagain⟩
  · have hthing := K.directory _ h.thing?
    rw [← hnames, ← heq] at hthing
    have hmissing := hb.missing_eq_none .nil hthing
    rw [Arrival.names_eq_way hmissing] at heq hthing
    rw [(hb.follows .nil).thing?] at hthing
    exact ⟨b, ⟨hb, hmissing, isDirectory_iff.2 (Option.some.inj hthing)⟩, heq.trans hnames, hlinks⟩
  · exact absurd h.isDirectory (K.blind hlink hv hds hagain h.missing)

/-- Where the link leads, so does the same link in the other tree. -/
theorem walks_link (hlink : t.thing? (ds ++ [k]) = some (.link target))
    (h : Walks t true links w closed (Route.ofBytes target).names a) (ha : FilePlace u a.names)
    (hopen : a.closed = false) (hw : Follows t w) (hds : w.names = ds) (hw' : Follows u w')
    (hds' : w'.names = ds) :
    ∃ b, Walks u true links w' closed (Route.ofBytes target).names b ∧ b.names = a.names ∧
      b.closed = false := by
  induction links using Nat.strongRecOn generalizing w closed with
  | ind links ih =>
    have hnot {c : Bool} {j : Nat} {v : Way}
        (h : Walks t true j v c (Route.ofBytes target).names a) : c = false := by
      rw [Bool.eq_false_iff]
      intro hc
      rw [h.closed_eq hc] at hopen
      cases hopen
    rcases K.walks_or h (.inr ha) hw hw' (hds'.trans hds.symm) with
      ⟨b, hb, heq, hclosed, -⟩ | ⟨target', j, v, c, hlink', hj, hv, hvds, hagain⟩
    · exact ⟨b, hb, heq, hclosed.trans hopen⟩
    · cases hlink.symm.trans hlink'
      obtain ⟨b, hb, heq, hclosed⟩ := ih j hj hagain hv hvds
      have hmore := hb.more (links - j)
      rw [Nat.add_sub_cancel' (Nat.le_of_lt hj), hnot hagain, ← hnot h] at hmore
      exact ⟨_, hmore, heq, hclosed⟩

/-- So does another link to the same place, in the directory of the same names. -/
theorem walks_of_link (hk : IsName k) (hlink : t.thing? (ds ++ [k]) = some (.link target))
    (h : Walks t true links w false [k] a) (ha : FilePlace u a.names) (hopen : a.closed = false)
    (hw : Follows t w) (hds : w.names = ds) (hn : IsName n)
    (hlink' : u.thing? (ds ++ [n]) = some (.link target)) (hw' : Follows u w')
    (hds' : w'.names = ds) :
    ∃ b, Walks u true links w' false [n] b ∧ b.names = a.names ∧ b.closed = false := by
  obtain ⟨j, rfl, hbelow, hgo⟩ := h.exists_link hw hk (by rw [hds]; exact hlink)
  obtain ⟨b, hb, heq, hclosed⟩ := K.walks_link hlink hgo ha hopen hw hds hw' hds'
  exact ⟨b, .of_link hw' hn (by rw [hds']; exact hlink') hbelow hb, heq, hclosed⟩

end Keeps

/-! ## Trees without an entry -/

section Remove

variable (hds : made.thing? ds = some .directory) (hn : made.thing? (ds ++ [n]) ≠ some .directory)
include hds hn

theorem thing?_remove_eq_some_iff {x : Thing} :
    (remove (ds ++ [n]) made).thing? q = some x ↔ q ≠ ds ++ [n] ∧ made.thing? q = some x := by
  have hself := thing?_remove_self hds n
  by_cases hpre : ds ++ [n] <+: q
  · by_cases hq : q = ds ++ [n]
    · rw [hq, hself]
      exact ⟨nofun, fun h => absurd rfl h.1⟩
    · rw [thing?_eq_none_of_isPrefix hn hpre (Ne.symm hq),
        thing?_eq_none_of_isPrefix (by rw [hself]; nofun) hpre (Ne.symm hq)]
      exact ⟨nofun, fun h => nomatch h.2⟩
  · rw [thing?_remove hds hpre]
    refine ⟨fun h => ⟨?_, h⟩, And.right⟩
    rintro rfl
    exact hpre List.prefix_rfl

theorem keeps_remove : Keeps (remove (ds ++ [n]) made) made ds n where
  directory _ h := ((thing?_remove_eq_some_iff hds hn).1 h).2
  link _ _ _ h := ((thing?_remove_eq_some_iff hds hn).1 h).2
  blind h := absurd rfl ((thing?_remove_eq_some_iff hds hn).1 h).1

theorem filePlace_remove_iff (hq : q ≠ ds ++ [n]) :
    FilePlace (remove (ds ++ [n]) made) q ↔ FilePlace made q := by
  have hiff {x : Thing} := thing?_remove_eq_some_iff (q := q) (x := x) hds hn
  constructor
  · rintro ⟨⟨es, k, rfl, hes⟩, hfile⟩
    exact ⟨⟨es, k, rfl, ((thing?_remove_eq_some_iff hds hn).1 hes).2⟩,
      fun x hx => hfile x (hiff.2 ⟨hq, hx⟩)⟩
  · rintro ⟨⟨es, k, rfl, hes⟩, hfile⟩
    refine ⟨⟨es, k, rfl, (thing?_remove_eq_some_iff hds hn).2 ⟨?_, hes⟩⟩,
      fun x hx => hfile x (hiff.1 hx).2⟩
    rintro rfl
    exact hn hes

/-- Where a file is written past an entry, it is written to the same place without that entry. -/
theorem Writes.names_eq {d d₀ : Arrival} (W : Writes made d m p) (hd : Holds made ns d)
    (h₀ : Holds (remove (ds ++ [n]) made) ns d₀)
    (h : Walks (remove (ds ++ [n]) made) true d₀.links d₀.way false [m] a)
    (hne : a.names ≠ ds ++ [n]) :
    d₀.way.names = d.way.names ∧ a.names = p ∧ a.closed = false := by
  have K := keeps_remove hds hn
  obtain ⟨d', hd', hnames, hlinks⟩ := K.holds h₀
  obtain rfl := hd.unique hd'
  have hplace := (h.filePlace h₀.follows h₀.isDirectory).imp_right
    (filePlace_remove_iff hds hn hne).1
  obtain ⟨b, hb, hbnames, hbclosed, -⟩ | ⟨_, _, _, _, hlink, -⟩ :=
    K.walks_or h hplace h₀.follows hd.follows hnames
  · obtain ⟨a₀, ha₀, hopen, hp⟩ := W.last
    rw [hlinks] at ha₀
    cases hb.walk_eq.symm.trans ha₀.walk_eq
    exact ⟨hnames.symm, hbnames.symm.trans hp, hbclosed.symm.trans hopen⟩
  · exact absurd rfl ((thing?_remove_eq_some_iff hds hn).1 hlink).1

end Remove

/-! ## Files that are moved -/

theorem LeadsTo.exists_walks (h : LeadsTo made ds m p content leaf)
    (hlink : leaf.thing = .link target) : made.thing? (ds ++ [m]) = some (.link target) ∧
      ∃ links closed w a, Follows made w ∧ w.names = ds ∧
        Walks made true links w closed (Route.ofBytes target).names a ∧ a.names = p := by
  cases h with
  | file => cases hlink
  | link hthing hw hds h hp =>
    cases hlink
    exact ⟨hthing, _, _, _, _, hw, hds, h, hp⟩

section Moved

variable (H : Replaced made top ds m n p content leaf) (hleaf : LeadsTo made ds m p content leaf)
  (hmn : m ≠ n)
include H hleaf hmn

theorem Replaced.thing?_of_remove {x : Thing}
    (hx : (remove (ds ++ [n]) made).thing? q = some x) (hfile : ∀ content, x ≠ .file content)
    (hm : q ≠ ds ++ [m]) : top.thing? q = some x := by
  obtain ⟨hn, hx⟩ := (thing?_remove_eq_some_iff H.directory H.target).1 hx
  refine (H.thing?_of_ne hleaf.ne_directory hmn hm hn ?_).trans hx
  rintro rfl
  obtain ⟨content, hcontent⟩ := H.place.file x hx
  exact hfile content hcontent

theorem Replaced.thing?_remove_of {x : Thing} (hx : top.thing? q = some x)
    (hfile : ∀ content, x ≠ .file content) (hn : q ≠ ds ++ [n]) :
    (remove (ds ++ [n]) made).thing? q = some x := by
  have hm : q ≠ ds ++ [m] := by
    intro h
    rw [h, H.gone (h ▸ hn)] at hx
    cases hx
  have hp : q ≠ p := by
    intro h
    rw [h, H.written (h ▸ hm) (h ▸ hn)] at hx
    exact hfile _ (Option.some.inj hx).symm
  refine (thing?_remove_eq_some_iff H.directory H.target).2 ⟨hn, ?_⟩
  rw [← hx, H.thing?_of_ne hleaf.ne_directory hmn hm hn hp]

theorem Replaced.filePlace (hpm : p ≠ ds ++ [m]) (hpn : p ≠ ds ++ [n]) : FilePlace top p where
  entry := by
    obtain ⟨es, k, rfl, hes⟩ := H.place.entry
    refine ⟨es, k, rfl, H.thing?_of_remove hleaf hmn
      ((thing?_remove_eq_some_iff H.directory H.target).2 ⟨?_, hes⟩) nofun ?_⟩
    · rintro rfl
      exact H.target hes
    · rintro rfl
      exact H.source hes
  file x hx := ⟨content, Option.some.inj (hx.symm.trans (H.written hpm hpn))⟩

/-- Where a file is now, a file could be written past the entry. -/
theorem Replaced.filePlace_remove {c : List UInt8} (h : FilePlace top q)
    (hfile : top.thing? q = some (.file c)) (hqn : q ≠ ds ++ [n]) :
    FilePlace (remove (ds ++ [n]) made) q where
  entry := by
    obtain ⟨es, k, rfl, hes⟩ := h.entry
    refine ⟨es, k, rfl, H.thing?_remove_of hleaf hmn hes nofun ?_⟩
    rintro rfl
    exact hleaf.ne_directory (Option.some.inj (H.moved.symm.trans hes))
  file x hx := by
    obtain ⟨-, hx⟩ := (thing?_remove_eq_some_iff H.directory H.target).1 hx
    by_cases hp : q = p
    · exact H.place.file x (hp ▸ hx)
    · have hqm : q ≠ ds ++ [m] := by
        intro h
        rw [h, H.gone (h ▸ hqn)] at hfile
        cases hfile
      rw [← H.thing?_of_ne hleaf.ne_directory hmn hqm hqn hp, hfile] at hx
      exact ⟨c, (Option.some.inj hx).symm⟩

/-- A link that has been written through leads to no directory. -/
theorem Replaced.keeps_of_walks (hm : IsName m) (hw : Follows (remove (ds ++ [n]) made) w)
    (hds : w.names = ds) (h : Walks (remove (ds ++ [n]) made) true links w closed [m] a)
    (hp : a.names = p) : Keeps (remove (ds ++ [n]) made) top ds m where
  directory q hq := by
    refine H.thing?_of_remove hleaf hmn hq nofun ?_
    rintro rfl
    exact H.source ((thing?_remove_eq_some_iff H.directory H.target).1 hq).2
  link q target hq hlink := H.thing?_of_remove hleaf hmn hlink nofun hq
  blind hlink hv hvds hgo hmissing hdir := by
    obtain ⟨j, -, -, hlast⟩ := h.exists_link hw hm (by rw [hds]; exact hlink)
    obtain rfl := hw.unique hv (hvds.trans hds.symm)
    obtain ⟨hway, hmissing'⟩ := hlast.unique hgo
    have hthing := (hgo.follows hv).thing?
    rw [isDirectory_iff.1 hdir, hway, ← Arrival.names_eq_way (hmissing' ▸ hmissing), hp] at hthing
    exact H.place.ne_directory ((thing?_remove_eq_some_iff H.directory H.target).1 hthing).2

/-- Nor does one that has been moved. -/
theorem Replaced.keeps_of_follows (hn : IsName n) :
    Keeps top (remove (ds ++ [n]) made) ds n where
  directory q hq := by
    refine H.thing?_remove_of hleaf hmn hq nofun ?_
    rintro rfl
    exact hleaf.ne_directory (Option.some.inj (H.moved.symm.trans hq))
  link q target hq hlink := H.thing?_remove_of hleaf hmn hlink nofun hq
  blind hlink hv hvds hgo hmissing hdir := by
    have hthing := Option.some.inj (H.moved.symm.trans hlink)
    obtain ⟨-, _, _, w, a, hw, hds, h, hp⟩ := hleaf.exists_walks hthing
    have hend := H.end_eq hleaf hn hgo hmissing hv hw (hds.trans hvds.symm) (hds ▸ H.directory)
      ⟨h, List.append_nil _, .inl hp⟩
    rw [hend] at hdir
    cases hdir

/-- Where the file can be written past the entry `n`, that name leads to it. -/
theorem Replaced.exists_follow {d : Arrival} (hd : Holds made ns d) (hnames : d.way.names = ds)
    (W : Writes made d m p) (hn : IsName n)
    (h : Walks (remove (ds ++ [n]) made) true maxLinks [] false (ns ++ [m]) a)
    (hne : a.names ≠ ds ++ [n]) : ∃ w, top.follow true ⟨ns ++ [n], false⟩ = .ok w := by
  obtain ⟨d₀, h₀, hlast⟩ := Holds.exists_of_walks h
  obtain ⟨hnames₀, hp, hopen⟩ := W.names_eq H.directory H.target hd h₀ hlast hne
  have hds : d₀.way.names = ds := hnames₀.trans hnames
  have K := H.keeps_of_walks hleaf hmn W.isName h₀.follows hds hlast hp
  obtain ⟨d₁, h₁, hnames₁, hlinks₁⟩ := K.holds h₀
  cases leaf with
  | file c => exact ⟨_, h₁.follow_file hn (by rw [hnames₁, hds]; exact H.moved) true⟩
  | directory es => exact absurd rfl hleaf.ne_directory
  | link target =>
    obtain ⟨hthing, -⟩ := hleaf.exists_walks rfl
    have hpm : p ≠ ds ++ [m] := by
      intro h
      exact H.place.ne_link target (h ▸ hthing)
    have hpn : p ≠ ds ++ [n] := hp ▸ hne
    have hlink := (thing?_remove_eq_some_iff H.directory H.target).2
      ⟨concat_ne_concat hmn, hthing⟩
    obtain ⟨b, hb, hbnames, hbopen⟩ := K.walks_of_link W.isName hlink hlast
      (by rw [hp]; exact H.filePlace hleaf hmn hpm hpn) hopen h₀.follows hds hn H.moved
      h₁.follows (hnames₁.trans hds)
    have hwalks := h₁.walks.concat h₁.missing (hlinks₁ ▸ hb)
    have hmissing := hwalks.missing_eq_none .nil
      (by rw [hbnames, hp]; exact H.written hpm hpn)
    refine ⟨b.way, follow_eq_ok.2 ⟨b, hwalks, hmissing, fun hclosed => ?_, rfl⟩⟩
    cases hbopen.symm.trans hclosed

/-- That name leads to the file only if the file can be written past the entry. -/
theorem Replaced.exists_walks {d : Arrival} (hd : Holds made ns d) (hnames : d.way.names = ds)
    (W : Writes made d m p) (hn : IsName n) (h : top.follow true ⟨ns ++ [n], false⟩ = .ok w) :
    ∃ a, Walks (remove (ds ++ [n]) made) true maxLinks [] false (ns ++ [m]) a ∧
      a.names ≠ ds ++ [n] := by
  obtain ⟨a, hwalks, hmissing, hclosed, rfl⟩ := follow_eq_ok.1 h
  have hend := H.end_eq hleaf hn hwalks hmissing .nil .nil rfl (thing?_nil_of H.directory)
    ⟨hd.walks, rfl, .inr ⟨hd.missing, hnames, rfl⟩⟩
  have hopen : a.closed = false := by
    rw [Bool.eq_false_iff]
    intro h
    have hdir := hclosed h
    rw [hend] at hdir
    cases hdir
  have K := H.keeps_of_follows hleaf hmn hn
  obtain ⟨d₁, h₁, hlast⟩ := Holds.exists_of_walks hwalks
  obtain ⟨d₀, h₀, hnames₀, hlinks₀⟩ := K.holds h₁
  have hds : d₀.way.names = ds := by
    obtain ⟨d', hd', hnames', -⟩ := (keeps_remove H.directory H.target).holds h₀
    obtain rfl := hd.unique hd'
    exact hnames'.symm.trans hnames
  have hne : ds ++ [m] ≠ ds ++ [n] := concat_ne_concat hmn
  cases leaf with
  | file c =>
    cases hleaf with
    | file hp =>
      have hplace := (filePlace_remove_iff H.directory H.target hne).2 (hp ▸ H.place)
      obtain ⟨b, hb, hbnames, -⟩ :=
        hplace.walks h₀.follows hds h₀.isDirectory W.isName d₀.links false
      exact ⟨b, h₀.walks.concat h₀.missing hb, hbnames ▸ hne⟩
  | directory es => exact absurd rfl hleaf.ne_directory
  | link target =>
    obtain ⟨hthing, -⟩ := hleaf.exists_walks rfl
    have hlink := (thing?_remove_eq_some_iff H.directory H.target).2 ⟨hne, hthing⟩
    have hfile : top.thing? a.names = some (.file content) := by
      rw [Arrival.names_eq_way hmissing, (hwalks.follows .nil).thing?, hend]
      rfl
    have han : a.names ≠ ds ++ [n] := by
      intro h
      rw [h, H.moved] at hfile
      cases hfile
    have hplace : FilePlace top a.names := by
      refine (hlast.filePlace h₁.follows h₁.isDirectory).resolve_left fun h => ?_
      rw [hend] at h
      cases h.2
    obtain ⟨b, hb, hbnames, -⟩ := K.walks_of_link hn H.moved hlast
      (H.filePlace_remove hleaf hmn hplace hfile han) hopen h₁.follows (hnames₀.symm.trans hds)
      W.isName hlink h₀.follows hds
    exact ⟨b, h₀.walks.concat h₀.missing (hlinks₀ ▸ hb), hbnames ▸ han⟩

end Moved

/-- A file that is written and moved to another name of its directory is found there if and only if,
with the entry of that name taken away, the old name still leads to some other place. -/
theorem exists_follow_iff {written : Tree} {d : Arrival} (hhere : m ≠ Route.here)
    (habove : m ≠ Route.above) (hmn : m ≠ n) (hd : Holds made ns d)
    (hwritten : made.write ⟨ns ++ [m], false⟩ content = .ok written)
    (hmoved : written.rename ⟨ns ++ [m], false⟩ ⟨ns ++ [n], false⟩ = .ok top) :
    (∃ w, top.follow true ⟨ns ++ [n], false⟩ = .ok w) ↔
      ∃ a, (remove (d.way.names ++ [n]) made).arrive true ⟨ns ++ [m], false⟩ = .ok a ∧
        a.names ≠ d.way.names ++ [n] := by
  obtain ⟨d', p, leaf, hd', W, hn, H, hleaf⟩ := exists_replaced hhere habove hwritten hmoved
  obtain rfl := hd.unique hd'
  constructor
  · rintro ⟨w, h⟩
    obtain ⟨a, hwalks, hne⟩ := H.exists_walks hleaf hmn hd rfl W hn h
    exact ⟨a, hwalks.walk_eq, hne⟩
  · rintro ⟨a, h, hne⟩
    exact H.exists_follow hleaf hmn hd rfl W hn (walks_of_walk h) hne

end PublishDesk.Tree
