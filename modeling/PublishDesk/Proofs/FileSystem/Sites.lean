import Mathlib
import PublishDesk.Discovery
import PublishDesk.Proofs.FileSystem.Order

/-!
# Sites

A search finds a site if there is exactly one, and then that one (`Discovery.search?_eq_some_iff`).
What counts as a site (`IsSite`) says only what stands where below the root, so neither the order
of entries nor the place and the name of the root matters. The candidates of a search are the ways
to its sites (`mem_ways`), none of them twice (`nodup_ways`).
-/

namespace PublishDesk

namespace Tree

variable {top t : Tree} {w : Way} {last closed : Bool} {links : Nat} {ns : List FileName}
  {a : Arrival} {r : Route}

/-! ## Roots -/

/-- A walk that follows a last link either has none to follow or passes it. -/
theorem Walks.unfollowed (h : Walks top true links w closed ns a) :
    Walks top false links w closed ns a ∨ ∃ a', Walks top false links w closed ns a' ∧
      a'.missing = none ∧ a'.closed = false ∧ ∃ target, a'.way.end top = .link target := by
  induction h with
  | done => exact .inl .done
  | here hdir h ih => exact ih.imp (.here hdir) fun ⟨a', h', ha'⟩ => ⟨a', .here hdir h', ha'⟩
  | above hdir h ih => exact ih.imp (.above hdir) fun ⟨a', h', ha'⟩ => ⟨a', .above hdir h', ha'⟩
  | missing hname hdir hchild => exact .inl (.missing hname hdir hchild)
  | stay hname hchild hstay => cases hstay
  | @follow _ _ closed _ ns target _ hname hchild hgo hbelow h ih =>
    by_cases hend : ns = [] ∧ closed = false
    · obtain ⟨rfl, rfl⟩ := hend
      exact .inr ⟨_, .stay hname hchild rfl, rfl, rfl, target, rfl⟩
    · have hgo' : ns = [] → (false : Bool) ∨ closed := fun hns => .inr (by simpa [hns] using hend)
      exact ih.imp (.follow hname hchild hgo' hbelow)
        fun ⟨a', h', ha'⟩ => ⟨a', .follow hname hchild hgo' hbelow h', ha'⟩
  | enter hname hchild hlink h ih =>
    exact ih.imp (.enter hname hchild hlink)
      fun ⟨a', h', ha'⟩ => ⟨a', .enter hname hchild hlink h', ha'⟩

theorem at?_eq_some_iff : top.at? last r = some t ↔ ∃ w, top.follow last r = .ok w ∧
    w.end top = t := by
  rw [at?, Option.map_eq_some_iff]
  cases top.follow last r <;> simp [Except.toOption]

/-- The root of a search may be a directory or a link to one. -/
theorem survey?_eq (h : top.at? true r = some t) (hdir : t.isDirectory) :
    top.survey? r = some t := by
  obtain ⟨w, hw, hend⟩ := at?_eq_some_iff.1 h
  obtain ⟨a, hwalk, hmissing, hclosed, rfl⟩ := follow_eq_ok.1 hw
  rcases hwalk.unfollowed with hwalk | ⟨a', hwalk, hmissing', hclosed', target, hlink⟩
  · have hat : top.at? false r = some t :=
      at?_eq_some_iff.2 ⟨_, follow_eq_ok.2 ⟨a, hwalk, hmissing, hclosed, rfl⟩, hend⟩
    rw [survey?, hat]
    cases t with
    | directory es => rfl
    | file content => cases hdir
    | link target => cases hdir
  · have hat : top.at? false r = some (.link target) :=
      at?_eq_some_iff.2 ⟨_, follow_eq_ok.2 ⟨a', hwalk, hmissing', by simp [hclosed'], rfl⟩, hlink⟩
    rw [survey?, hat, h]
    exact Option.filter_some_pos hdir

end Tree

namespace Discovery

/-- A name of a directory that is searched: UTF-8, not hidden and not of build products. -/
def IsSearched (n : FileName) : Prop :=
  ∃ cs, Text.Utf8.decode? n = some cs ∧ cs.head? ≠ some '.' ∧ cs ≠ "target".toList ∧
    cs ≠ "node_modules".toList

/-- A file called `name` stands at the end of a way from the root. The way passes no more than
`depth` names, and all but the last are those of directories that are searched. No link is followed
and none counts as a file. -/
structure IsSite (name : FileName) (depth : Nat) (root : Tree) (way : List FileName) : Prop where
  file : ∃ content, root.thing? way = some (.file content)
  called : way.getLast? = some name
  short : way.length ≤ depth
  searched : ∀ n ∈ way.dropLast, IsSearched n

/-- The ways to the files called `name` that begin with one entry of a directory, given those from
the directories that it holds. -/
def waysFrom (name : FileName) (below : List (FileName × Tree) → List (List FileName)) :
    FileName × Tree → List (List FileName)
  | (n, .file _) => if n = name then [[n]] else []
  | (_, .link _) => []
  | (n, .directory fs) => if isSkipped n then [] else (below fs).map (n :: ·)

/-- The ways to the files called `name` that take at most so many steps from a directory. -/
def ways (name : FileName) : Nat → List (FileName × Tree) → List (List FileName)
  | 0, _ => []
  | depth + 1, es => es.flatMap (waysFrom name (ways name depth))

variable {name n : FileName} {depth : Nat} {t : Tree} {w way : List FileName}
  {es fs : List (FileName × Tree)}

theorem isSkipped_eq_false_iff : isSkipped n = false ↔ IsSearched n := by
  rw [isSkipped, IsSearched]
  cases Text.Utf8.decode? n with
  | none => simp
  | some cs => simp [productNames, @eq_comm _ cs]

/-! ## Candidates -/

/-- The candidates are the ways, each read backwards from its end. -/
theorem candidates_eq (name : FileName) (depth : Nat) (path : List FileName)
    (es : List (FileName × Tree)) : candidates name depth path (.directory es) =
      (ways name depth es).map (·.reverse ++ path) := by
  induction depth generalizing path es with
  | zero => rw [candidates, ways, List.map_nil]
  | succ depth ih =>
    rw [candidates]
    induction es with
    | nil => rw [candidatesIn, ways, List.flatMap_nil, List.map_nil]
    | cons e es ihes =>
      obtain ⟨n, t⟩ := e
      rw [ways] at ihes ⊢
      rw [List.flatMap_cons, List.map_append, ← ihes]
      cases t with
      | file content =>
        simp only [candidatesIn, candidates, waysFrom]
        by_cases hn : n = name <;> simp [hn]
      | link target => simp only [candidatesIn, candidates, waysFrom, List.map_nil]
      | directory fs =>
        rw [candidatesIn, waysFrom, ih]
        cases isSkipped n <;> simp

theorem mem_ways_succ : w ∈ ways name (depth + 1) es ↔
    (∃ content, (name, .file content) ∈ es ∧ w = [name]) ∨
      ∃ n fs v, (n, .directory fs) ∈ es ∧ IsSearched n ∧ v ∈ ways name depth fs ∧ w = n :: v := by
  rw [ways, List.mem_flatMap]
  constructor
  · rintro ⟨⟨n, t⟩, he, hw⟩
    cases t with
    | file content =>
      obtain ⟨rfl, rfl⟩ : n = name ∧ w = [n] := by simpa [waysFrom, List.mem_ite_nil_right] using hw
      exact .inl ⟨content, he, rfl⟩
    | link target => cases hw
    | directory fs =>
      obtain ⟨hn, v, hv, rfl⟩ : isSkipped n = false ∧ ∃ v ∈ ways name depth fs, n :: v = w := by
        simpa [waysFrom] using hw
      exact .inr ⟨n, fs, v, he, isSkipped_eq_false_iff.1 hn, hv, rfl⟩
  · rintro (⟨content, he, rfl⟩ | ⟨n, fs, v, he, hn, hv, rfl⟩)
    · exact ⟨_, he, by simp [waysFrom]⟩
    · exact ⟨_, he, by simp [waysFrom, isSkipped_eq_false_iff.2 hn, hv]⟩

/-- A site in a directory is one of its files or a site below one of its directories. -/
theorem isSite_succ (h : (es.map (·.1)).Nodup) : IsSite name (depth + 1) (.directory es) w ↔
    (∃ content, (name, .file content) ∈ es ∧ w = [name]) ∨
      ∃ n fs v, (n, .directory fs) ∈ es ∧ IsSearched n ∧ IsSite name depth (.directory fs) v ∧
        w = n :: v := by
  constructor
  · rintro ⟨⟨content, hfile⟩, hcalled, hshort, hsearched⟩
    obtain _ | ⟨n, v⟩ := w
    · cases hcalled
    rw [Tree.thing?_cons_directory] at hfile
    obtain ⟨t, ht, hfile⟩ := Option.bind_eq_some_iff.1 hfile
    have hmem := (lookup_eq_some_iff h).1 ht
    obtain _ | ⟨m, v⟩ := v
    · cases hcalled
      obtain rfl : t = .file content := by cases t <;> cases hfile; rfl
      exact .inl ⟨content, hmem, rfl⟩
    · obtain ⟨fs, _, rfl, -⟩ := Tree.exists_directory_of_thing? hfile
      refine .inr ⟨n, fs, m :: v, hmem, hsearched n List.mem_cons_self, ?_, rfl⟩
      exact ⟨⟨content, hfile⟩, hcalled, Nat.le_of_succ_le_succ hshort,
        fun k hk => hsearched k (List.mem_cons_of_mem _ hk)⟩
  · rintro (⟨content, hmem, rfl⟩ | ⟨n, fs, v, hmem, hn, hv, rfl⟩)
    · refine ⟨⟨content, ?_⟩, rfl, Nat.le_add_left 1 depth, nofun⟩
      rw [Tree.thing?_cons_directory, (lookup_eq_some_iff h).2 hmem]
      rfl
    · obtain ⟨⟨content, hfile⟩, hcalled, hshort, hsearched⟩ := hv
      obtain _ | ⟨m, v⟩ := v
      · cases hcalled
      refine ⟨⟨content, ?_⟩, hcalled, Nat.succ_le_succ hshort,
        List.forall_mem_cons.2 ⟨hn, hsearched⟩⟩
      rw [Tree.thing?_cons_directory, (lookup_eq_some_iff h).2 hmem]
      exact hfile

/-- The ways are those to the sites. -/
theorem mem_ways (h : Tree.Distinct (.directory es)) :
    w ∈ ways name depth es ↔ IsSite name depth (.directory es) w := by
  induction depth generalizing es w with
  | zero =>
    refine iff_of_false List.not_mem_nil fun ⟨_, hcalled, hshort, _⟩ => ?_
    rw [List.length_eq_zero_iff.1 (Nat.le_zero.1 hshort)] at hcalled
    cases hcalled
  | succ depth ih =>
    rw [mem_ways_succ, isSite_succ h.nodup]
    refine or_congr Iff.rfl (exists_congr fun n => exists_congr fun fs => exists_congr fun v => ?_)
    exact and_congr_right fun hmem => by rw [ih (h.entry hmem)]

theorem head?_of_mem_waysFrom {below : List (FileName × Tree) → List (List FileName)}
    {e : FileName × Tree} (hw : w ∈ waysFrom name below e) : w.head? = some e.1 := by
  obtain ⟨n, t⟩ := e
  cases t with
  | file content =>
    obtain ⟨rfl, rfl⟩ : n = name ∧ w = [n] := by simpa [waysFrom, List.mem_ite_nil_right] using hw
    rfl
  | link target => cases hw
  | directory fs =>
    obtain ⟨-, v, -, rfl⟩ : isSkipped n = false ∧ ∃ v ∈ below fs, n :: v = w := by
      simpa [waysFrom] using hw
    rfl

theorem nodup_ways (h : Tree.Distinct (.directory es)) : (ways name depth es).Nodup := by
  induction depth generalizing es with
  | zero => exact List.nodup_nil
  | succ depth ih =>
    refine List.nodup_flatMap.2 ⟨fun e he => ?_, ?_⟩
    · obtain ⟨n, t⟩ := e
      cases t with
      | file content =>
        rw [waysFrom]
        split_ifs
        · exact List.nodup_singleton _
        · exact List.nodup_nil
      | link target => exact List.nodup_nil
      | directory fs =>
        rw [waysFrom]
        split_ifs
        · exact List.nodup_nil
        · exact (ih (h.entry he)).map (List.cons_injective)
    · refine (List.pairwise_map.1 h.nodup).imp fun hne w hw hw' => hne ?_
      exact Option.some.inj ((head?_of_mem_waysFrom hw).symm.trans (head?_of_mem_waysFrom hw'))

/-! ## The only site -/

theorem find?_eq_some_iff {rootName : FileName} : find? name depth rootName (.directory es) =
    some way ↔ ways name depth es = [way] := by
  rw [find?, candidates_eq]
  obtain _ | ⟨v, _ | ⟨v', ws⟩⟩ := ways name depth es <;> simp

/-- There is exactly one site below a directory if its way is found. -/
theorem ways_eq_singleton_iff (h : Tree.Distinct (.directory es)) : ways name depth es = [way] ↔
    IsSite name depth (.directory es) way ∧
      ∀ other, IsSite name depth (.directory es) other → other = way := by
  rw [← List.perm_singleton, List.perm_ext_iff_of_nodup (nodup_ways h) (List.nodup_singleton _)]
  simp only [mem_ways h, List.mem_singleton]
  constructor
  · exact fun hall => ⟨(hall way).2 rfl, fun other => (hall other).1⟩
  · rintro ⟨hway, honly⟩ other
    exact ⟨honly other, fun heq => heq ▸ hway⟩

/-- What counts as a site depends on what stands where only. -/
theorem isSite_congr {u : Tree} (h : ∀ ns, t.thing? ns = u.thing? ns) :
    IsSite name depth t w ↔ IsSite name depth u w := by
  constructor
  · exact fun hsite => ⟨h w ▸ hsite.file, hsite.called, hsite.short, hsite.searched⟩
  · exact fun hsite => ⟨h w ▸ hsite.file, hsite.called, hsite.short, hsite.searched⟩

theorem search?_eq_some_iff {top : Tree} {root : Route} (hroot : top.at? true root = some t)
    (hdir : t.isDirectory) (ht : t.Distinct) : search? top root name depth = some way ↔
      IsSite name depth t way ∧ ∀ other, IsSite name depth t other → other = way := by
  obtain ⟨es, rfl⟩ : ∃ es, t = .directory es := by
    cases t with
    | directory es => exact ⟨es, rfl⟩
    | file content => cases hdir
    | link target => cases hdir
  rw [search?, Tree.survey?_eq hroot hdir, Option.bind_some, findFrom?, find?_eq_some_iff,
    ways_eq_singleton_iff ht]

/-- A site is found exactly if it is the only one below the root. The order of entries and the
route to the root do not matter: in any tree, a root that holds the same has the same site. -/
theorem search_finds_only_site {top : Tree} {root : Route} (hroot : top.at? true root = some t)
    (hdir : t.isDirectory) (ht : t.Distinct) :
    (∀ way, search? top root name depth = some way ↔
      IsSite name depth t way ∧ ∀ other, IsSite name depth t other → other = way) ∧
    ∀ (top' : Tree) (root' : Route) (t' : Tree), top'.at? true root' = some t' →
      Tree.Reordered t t' → search? top' root' name depth = search? top root name depth := by
  refine ⟨fun way => search?_eq_some_iff hroot hdir ht, fun top' root' t' hroot' hre => ?_⟩
  have hthing := hre.thing?_eq ht
  have hdir' : t'.isDirectory :=
    Tree.isDirectory_iff.2 (Option.some.inj ((hthing []).symm.trans
      (congrArg some (Tree.isDirectory_iff.1 hdir))))
  refine Option.ext fun way => ?_
  rw [search?_eq_some_iff hroot' hdir' (hre.distinct ht), search?_eq_some_iff hroot hdir ht]
  simp only [isSite_congr hthing]

/-- The bytes of a text as a name. -/
def nameOf (s : String) : FileName := Text.Utf8.encode s.toList

/-- A tree whose root `desk` is a link to a directory with these entries. -/
def deskTree (es : List (FileName × Tree)) : Tree :=
  .directory [(nameOf "desk", .link (nameOf ".work/target")),
    (nameOf ".work", .directory [(nameOf "target", .directory es)])]

/-- One file lies in a directory that is searched. The others lie in directories that are hidden, of
build products or not named in UTF-8, too far below, or behind a link; and a link has the name. -/
def deskEntries : List (FileName × Tree) :=
  let site := nameOf "config.toml"
  let found : Tree := .directory [(site, .file [])]
  let docs : Tree :=
    .directory [(nameOf "en", .directory [(nameOf "old", found), (site, .file [])])]
  [(nameOf ".git", found), (nameOf "target", found), (nameOf "node_modules", found),
    ([0xff], found), (nameOf "docs", docs), (site, .link (nameOf "docs/en/config.toml")),
    (nameOf "mirror", .link (nameOf "docs"))]

/-- Below a directory of build products that is reached through a link, the only site is found. It
is found as well from another place with the entries in the opposite order. -/
theorem search_finds_only_site_desk :
    let root : Tree := .directory deskEntries
    let way := ["docs", "en", "config.toml"].map nameOf
    (IsSite (nameOf "config.toml") 3 root way ∧
      ∀ other, IsSite (nameOf "config.toml") 3 root other → other = way) ∧
    search? (.directory deskEntries.reverse) ⟨[], false⟩ (nameOf "config.toml") 3 = some way := by
  intro root way
  have hroot : (deskTree deskEntries).at? true ⟨[nameOf "desk"], false⟩ = some root := by cbv
  have hroot' : (Tree.directory deskEntries.reverse).at? true ⟨[], false⟩ =
      some (.directory deskEntries.reverse) := by cbv
  have hsite : Tree.Distinct (.directory [(nameOf "config.toml", .file [])]) :=
    .directory (List.nodup_singleton _) (List.forall_mem_singleton.2 (.file []))
  have hdocs : Tree.Distinct (.directory [(nameOf "en", .directory
      [(nameOf "old", .directory [(nameOf "config.toml", .file [])]),
        (nameOf "config.toml", .file [])])]) :=
    .directory (List.nodup_singleton _) (List.forall_mem_singleton.2
      (.directory (by decide) (by simp [hsite, Tree.Distinct.file])))
  have hdistinct : root.Distinct :=
    .directory (by decide) (by simp [deskEntries, hsite, hdocs, Tree.Distinct.link])
  have hfound : search? (deskTree deskEntries) ⟨[nameOf "desk"], false⟩ (nameOf "config.toml") 3 =
      some way := by cbv
  exact ⟨((search_finds_only_site hroot rfl hdistinct).1 way).1 hfound,
    ((search_finds_only_site hroot rfl hdistinct).2 _ _ _ hroot'
      (.entries deskEntries.reverse_perm.symm)).trans hfound⟩

end Discovery
end PublishDesk
