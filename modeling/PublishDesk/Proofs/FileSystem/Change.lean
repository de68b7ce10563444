import PublishDesk.Proofs.FileSystem.Replace

/-!
# Files written and moved

A file is written in the directory that holds it, or where a link leads that stands there
(`exists_writes`). Moving it takes its entry away and puts it under the new name
(`Holds.of_rename`). The directory is reached as before in the tree after each change
(`Holds.change`): the entry that changes is no directory, and if it was a link, no link was followed
to get there. So the file that was moved is found under its new name (`exists_of_replace`).
-/

namespace PublishDesk

/-- The names of what a route has led to, or would have if it had not been missing. -/
def Arrival.names (a : Arrival) : List FileName := a.way.names ++ a.missing.toList

theorem Arrival.names_of_none (w : Way) (closed : Bool) (links : Nat) :
    Arrival.names ⟨w, none, closed, links⟩ = w.names :=
  List.append_nil _

namespace Tree

variable {top top' : Tree} {ns : List FileName} {m n : FileName} {p : List FileName} {d : Arrival}
  {last closed : Bool} {links : Nat} {content : List UInt8} {r r' : Route} {w : Way}

/-! ## Places -/

/-- The names of an entry that a file can be written in: what is there is a file, if anything. -/
structure FilePlace (top : Tree) (p : List FileName) : Prop where
  entry : ∃ ds n, p = ds ++ [n] ∧ top.thing? ds = some .directory
  file : ∀ x, top.thing? p = some x → ∃ content, x = .file content

theorem FilePlace.ne_directory (h : FilePlace top p) : top.thing? p ≠ some .directory := by
  intro hx
  obtain ⟨content, ⟨⟩⟩ := h.file _ hx

theorem FilePlace.ne_link (h : FilePlace top p) (target : List UInt8) :
    top.thing? p ≠ some (.link target) := by
  intro hx
  obtain ⟨content, ⟨⟩⟩ := h.file _ hx

theorem FilePlace.thing?_set (h : FilePlace top p) {q : List FileName} (hq : ¬p <+: q)
    (leaf : Tree) : (set leaf p top).thing? q = top.thing? q := by
  obtain ⟨ds, n, rfl, hds⟩ := h.entry
  exact Tree.thing?_set hds hq leaf

/-- What is not a file is kept. -/
theorem FilePlace.thing?_set_of_some (h : FilePlace top p) {q : List FileName} {x : Thing}
    (hx : top.thing? q = some x) (hfile : ∀ content, x ≠ .file content) (leaf : Tree) :
    (set leaf p top).thing? q = some x := by
  refine (h.thing?_set (fun hpre => ?_) leaf).trans hx
  obtain rfl := eq_of_isPrefix h.ne_directory hx hpre
  obtain ⟨content, hcontent⟩ := h.file x hx
  exact hfile content hcontent

theorem FilePlace.thing?_set_self (h : FilePlace top p) (leaf : Tree) :
    (set leaf p top).thing? p = some leaf.thing := by
  obtain ⟨ds, n, rfl, hds⟩ := h.entry
  exact Tree.thing?_set_self hds n leaf

theorem Follows.filePlace (hw : Follows top w) (hdir : (w.end top).isDirectory)
    (hchild : ∀ t, (w.end top).child? n = some t → ∃ content, t = .file content) :
    FilePlace top (w.names ++ [n]) where
  entry := ⟨_, _, rfl, hw.thing?.trans (congrArg some (isDirectory_iff.1 hdir))⟩
  file x hx := by
    rw [hw.thing?_concat] at hx
    obtain ⟨t, ht, rfl⟩ := Option.map_eq_some_iff.1 hx
    obtain ⟨content, rfl⟩ := hchild t ht
    exact ⟨content, rfl⟩

/-- A walk from a directory arrives in a directory, or at the place of a file. -/
theorem Walks.filePlace (h : Walks top true links w closed ns d) (hw : Follows top w)
    (hdir : (w.end top).isDirectory) :
    d.missing = none ∧ (d.way.end top).isDirectory ∨ FilePlace top d.names := by
  induction h with
  | done => exact .inl ⟨rfl, hdir⟩
  | here h₀ h ih => exact ih hw hdir
  | above h₀ h ih =>
    cases hw with
    | cons hw hchild => exact ih hw (isDirectory_of_child? hchild)
  | missing hname h₀ hchild =>
    exact .inr (hw.filePlace hdir fun t ht => nomatch hchild.symm.trans ht)
  | stay hname hchild hlast => cases hlast
  | follow hname hchild hgo hbelow h ih => exact ih hw hdir
  | @enter _ w _ n _ t _ hname hchild hlink h ih =>
    by_cases ht : t.isDirectory
    · exact ih (hw.cons hchild) ht
    · obtain ⟨-, rfl⟩ := h.eq_nil ht
      refine .inr ?_
      rw [Arrival.names_of_none, names_cons]
      refine hw.filePlace hdir fun u hu => ?_
      obtain rfl := Option.some.inj (hchild.symm.trans hu)
      cases t with
      | file content => exact ⟨content, rfl⟩
      | link target => exact absurd rfl (hlink target)
      | directory es => exact absurd rfl ht

/-! ## Directories -/

/-- Names lead to a directory. -/
structure Holds (top : Tree) (ns : List FileName) (d : Arrival) : Prop where
  walks : Walks top true maxLinks [] true ns d
  missing : d.missing = none
  isDirectory : (d.way.end top).isDirectory

namespace Holds

theorem follows (h : Holds top ns d) : Follows top d.way := h.walks.follows .nil

theorem follow (h : Holds top ns d) : top.follow true ⟨ns, true⟩ = .ok d.way :=
  follow_eq_ok.2 ⟨d, h.walks, h.missing, fun _ => h.isDirectory, rfl⟩

theorem thing? (h : Holds top ns d) : top.thing? d.way.names = some .directory := by
  rw [h.follows.thing?, isDirectory_iff.1 h.isDirectory]

theorem unique {d' : Arrival} (h : Holds top ns d) (h' : Holds top ns d') : d' = d :=
  Except.ok.inj (h'.walks.walk_eq.symm.trans h.walks.walk_eq)

/-- A walk with a name ahead passes the directory that holds it. -/
theorem exists_of_walks {a : Arrival} (h : Walks top last maxLinks [] closed (ns ++ [n]) a) :
    ∃ d, Holds top ns d ∧ Walks top last d.links d.way closed [n] a := by
  obtain ⟨d, hd, hmissing, hlast⟩ := h.exists_directory
  refine ⟨d, ⟨hd, hmissing, ?_⟩, hlast⟩
  by_contra hend
  exact List.cons_ne_nil _ _ (hlast.eq_nil hend).1

/-! ## The last name -/

theorem exists_child (h : Holds top ns d) {x : Thing}
    (hx : top.thing? (d.way.names ++ [n]) = some x) :
    ∃ t, (d.way.end top).child? n = some t ∧ t.thing = x := by
  rw [h.follows.thing?_concat] at hx
  exact Option.map_eq_some_iff.1 hx

/-- A file in the directory is found under its name. -/
theorem follow_file (h : Holds top ns d) (hn : IsName n)
    (hfile : top.thing? (d.way.names ++ [n]) = some (.file content)) (last : Bool) :
    top.follow last ⟨ns ++ [n], false⟩ = .ok ((n, .file content) :: d.way) := by
  obtain ⟨t, hchild, ht⟩ := h.exists_child hfile
  cases t with
  | file c =>
    cases ht
    refine follow_eq_ok.2 ⟨_, h.walks.concat h.missing (.enter hn hchild nofun .done), rfl, ?_, rfl⟩
    nofun
  | link target => cases ht
  | directory es => cases ht

/-- So is a link that is not followed. -/
theorem follow_link (h : Holds top ns d) (hn : IsName n) {target : List UInt8}
    (hlink : top.thing? (d.way.names ++ [n]) = some (.link target)) :
    top.follow false ⟨ns ++ [n], false⟩ = .ok ((n, .link target) :: d.way) := by
  obtain ⟨t, hchild, ht⟩ := h.exists_child hlink
  cases t with
  | file c => cases ht
  | link target =>
    cases ht
    refine follow_eq_ok.2 ⟨_, h.walks.concat h.missing (.stay hn hchild rfl), rfl, ?_, rfl⟩
    nofun
  | directory es => cases ht

theorem at?_link (h : Holds top ns d) (hn : IsName n) {target : List UInt8}
    (hlink : top.thing? (d.way.names ++ [n]) = some (.link target)) :
    top.at? false ⟨ns ++ [n], false⟩ = some (.link target) := by
  rw [at?, h.follow_link hn hlink]
  rfl

/-! ## Changes -/

/-- A directory is reached as before in a tree where only an entry has changed that is neither a
directory nor a link, or where no link is followed to get there. -/
theorem change (h : Holds top ns d) (hp : top.thing? p ≠ some .directory)
    (hlink : (∀ target, top.thing? p ≠ some (.link target)) ∨ d.links = maxLinks)
    (hsame : ∀ q, ¬p <+: q → top'.thing? q = top.thing? q) :
    ∃ d', Holds top' ns d' ∧ d'.way.names = d.way.names ∧ d'.links = d.links := by
  have hdir (q : List FileName) (hq : top.thing? q = some .directory) :
      top'.thing? q = some .directory :=
    (hsame q fun hpq => hp (eq_of_isPrefix hp hq hpq ▸ hq)).trans hq
  have hkeep : (∀ q target, top.thing? q = some (.link target) →
      top'.thing? q = some (.link target)) ∨ d.links = maxLinks :=
    hlink.imp_left fun hlink q target hq =>
      (hsame q fun hpq => hlink target (eq_of_isPrefix hp hq hpq ▸ hq)).trans hq
  obtain ⟨d', hwalks, hnames, hmissing, hlinks⟩ :=
    h.walks.congr h.missing h.isDirectory hdir hkeep .nil .nil rfl
  refine ⟨d', ⟨hwalks, hmissing, ?_⟩, hnames, hlinks⟩
  exact h.follows.isDirectory_congr (hwalks.follows .nil) hnames hdir h.isDirectory

/-- So it is where a file has been written. -/
theorem write (h : Holds top ns d) (hp : FilePlace top p) (content : List UInt8) :
    ∃ d', Holds (set (.file content) p top) ns d' ∧ d'.way.names = d.way.names ∧
      d'.links = d.links :=
  h.change hp.ne_directory (.inl hp.ne_link) fun _ hq => hp.thing?_set hq _

/-- A file that is moved is found under its new name. -/
theorem move (h : Holds top ns d)
    (hfile : top.thing? (d.way.names ++ [m]) = some (.file content))
    (hn : top.thing? (d.way.names ++ [n]) ≠ some .directory)
    (hlink : (∀ target, top.thing? (d.way.names ++ [n]) ≠ some (.link target)) ∨
      d.links = maxLinks) :
    ∃ d', Holds (set (.file content) (d.way.names ++ [n]) (remove (d.way.names ++ [m]) top)) ns d' ∧
      (set (.file content) (d.way.names ++ [n]) (remove (d.way.names ++ [m]) top)).thing?
        (d'.way.names ++ [n]) = some (.file content) := by
  obtain ⟨d₁, h₁, hnames₁, hlinks₁⟩ := h.change (p := d.way.names ++ [m])
    (by simp [hfile]) (.inl (by simp [hfile])) fun q hq => thing?_remove h.thing? hq
  have hentry (x : Thing) (hx : (remove (d.way.names ++ [m]) top).thing? (d.way.names ++ [n]) =
      some x) : top.thing? (d.way.names ++ [n]) = some x := by
    by_cases hmn : m = n
    · rw [hmn, thing?_remove_self h.thing?] at hx
      cases hx
    · rwa [thing?_remove h.thing? (not_concat_isPrefix hmn _)] at hx
  have hthing₁ := h₁.thing?
  rw [hnames₁] at hthing₁
  obtain ⟨d₂, h₂, hnames₂, -⟩ := h₁.change (p := d.way.names ++ [n]) (fun hx => hn (hentry _ hx))
    (hlink.imp (fun hlink target hx => hlink target (hentry _ hx)) hlinks₁.trans)
    fun q hq => thing?_set hthing₁ hq (.file content)
  refine ⟨d₂, h₂, ?_⟩
  rw [hnames₂, hnames₁]
  exact thing?_set_self hthing₁ n (.file content)

end Holds

/-! ## Calls -/

/-- The file at the end of a route is written. -/
theorem exists_of_write (h : top.write r content = .ok top') (hne : r.names ≠ []) :
    ∃ a, Walks top true maxLinks [] r.closed r.names a ∧ a.closed = false ∧
      FilePlace top a.names ∧ top' = set (.file content) a.names top := by
  obtain ⟨a, harrive, h⟩ := bind_eq_ok.1 h
  have hwalks := walks_of_walk harrive
  have hdir : (Way.end top []).isDirectory := by
    by_contra hend
    exact hne (hwalks.eq_nil hend).1
  cases hstop : a.closed || (a.missing.isNone && (a.way.end top).isDirectory) with
  | true =>
    rw [hstop] at h
    cases h
  | false =>
    rw [hstop] at h
    rw [Bool.or_eq_false_iff] at hstop
    refine ⟨a, hwalks, hstop.1, ?_, (Except.ok.inj h).symm⟩
    refine (hwalks.filePlace .nil hdir).resolve_left fun ⟨hmissing, hend⟩ => ?_
    rw [hmissing, hend] at hstop
    exact absurd hstop.2 (by decide)

theorem closed_of_write (h : top.write r content = .ok top') : r.closed = false := by
  obtain ⟨a, harrive, h⟩ := bind_eq_ok.1 h
  rw [Bool.eq_false_iff]
  intro hclosed
  rw [(walks_of_walk harrive).closed_eq hclosed] at h
  cases h

/-- The last name is that of the file in its directory, or that of a link to it. -/
structure Writes (top : Tree) (d : Arrival) (n : FileName) (p : List FileName) : Prop where
  isName : IsName n
  place : FilePlace top p
  last : ∃ a, Walks top true d.links d.way false [n] a ∧ a.closed = false ∧ a.names = p
  eq_or_link : p = d.way.names ++ [n] ∨ ∃ target links closed a,
    top.thing? (d.way.names ++ [n]) = some (.link target) ∧
      Walks top true links d.way closed (Route.ofBytes target).names a ∧ a.names = p

theorem exists_writes (h : top.write ⟨ns ++ [n], false⟩ content = .ok top')
    (hhere : n ≠ Route.here) (habove : n ≠ Route.above) :
    ∃ d p, Holds top ns d ∧ Writes top d n p ∧ top' = set (.file content) p top := by
  obtain ⟨a, hwalks, hopen, hplace, rfl⟩ := exists_of_write h (by simp)
  obtain ⟨d, hd, hlast⟩ := Holds.exists_of_walks hwalks
  refine ⟨d, _, hd, ?_, rfl⟩
  have hwalk : ∃ b, Walks top true d.links d.way false [n] b ∧ b.closed = false ∧
      b.names = a.names := ⟨a, hlast, hopen, rfl⟩
  obtain ⟨way, missing, closed, links⟩ := d
  cases hlast with
  | here => exact absurd rfl hhere
  | above => exact absurd rfl habove
  | missing hname => exact ⟨hname, hplace, hwalk, .inl rfl⟩
  | stay hname hchild hstay => cases hstay
  | follow hname hchild hgo hbelow h =>
    rw [List.append_nil] at h
    refine ⟨hname, hplace, hwalk, .inr ⟨_, _, _, _, ?_, h, rfl⟩⟩
    rw [hd.follows.thing?_concat, hchild]
    rfl
  | enter hname hchild hlink h =>
    cases h
    refine ⟨hname, hplace, hwalk, .inl ?_⟩
    rw [Arrival.names_of_none, names_cons]

/-- Where no link stands at the last name, it is that of the file. -/
theorem exists_writes_of_plain (hhere : n ≠ Route.here) (habove : n ≠ Route.above)
    (hplain : ∀ target, top.at? false ⟨ns ++ [n], false⟩ ≠ some (.link target))
    (h : top.write ⟨ns ++ [n], false⟩ content = .ok top') :
    ∃ d, Holds top ns d ∧ IsName n ∧ FilePlace top (d.way.names ++ [n]) ∧
      top' = set (.file content) (d.way.names ++ [n]) top := by
  obtain ⟨d, p, hd, H, rfl⟩ := exists_writes h hhere habove
  obtain rfl : p = d.way.names ++ [n] := H.eq_or_link.resolve_right
    fun ⟨target, _, _, _, hlink, _⟩ => hplain target (hd.at?_link H.isName hlink)
  exact ⟨d, hd, H.isName, H.place, rfl⟩

theorem exists_of_rename (h : top.rename r r' = .ok top') :
    ∃ w place n, top.follow false r = .ok w ∧ top.follow true r'.parent = .ok place ∧
      r'.names.getLast? = some n ∧ IsName n ∧ r'.closed = false ∧
      ((place.end top).child? n).any isDirectory = false ∧
      top' = set (w.end top) (place.names ++ [n]) (remove w.names top) := by
  obtain ⟨w, hw, h⟩ := bind_eq_ok.1 h
  obtain ⟨place, hplace, h⟩ := bind_eq_ok.1 h
  cases hn : r'.names.getLast? with
  | none =>
    rw [hn] at h
    cases h
  | some n =>
    rw [hn] at h
    simp only at h
    split at h
    · cases h
    · next hname =>
      split at h
      · cases h
      · next hlength =>
        split at h
        · cases h
        · next hclosed =>
          split at h
          · cases h
          · next hentry =>
            rw [not_or] at hname
            exact ⟨w, place, n, hw, hplace, rfl, ⟨hname.1, hname.2, Nat.not_lt.1 hlength⟩,
              Bool.eq_false_iff.2 hclosed, Bool.eq_false_iff.2 hentry, (Except.ok.inj h).symm⟩

/-- A move within a directory. -/
theorem Holds.of_rename (h : Holds top ns d) {leaf : Tree}
    (hleaf : top.follow false ⟨ns ++ [m], false⟩ = .ok ((m, leaf) :: d.way))
    (hmoved : top.rename ⟨ns ++ [m], false⟩ ⟨ns ++ [n], false⟩ = .ok top') :
    IsName n ∧ top.thing? (d.way.names ++ [n]) ≠ some .directory ∧
      top' = set leaf (d.way.names ++ [n]) (remove (d.way.names ++ [m]) top) := by
  obtain ⟨w, place, k, hw, hplace, hk, hname, -, hentry, rfl⟩ := exists_of_rename hmoved
  obtain rfl : n = k := by simpa using hk
  have hparent : Route.parent ⟨ns ++ [n], false⟩ = ⟨ns, true⟩ := by simp [Route.parent]
  rw [hparent] at hplace
  cases hw.symm.trans hleaf
  cases hplace.symm.trans h.follow
  refine ⟨hname, fun hx => ?_, by rw [names_cons]; rfl⟩
  obtain ⟨t, hchild, ht⟩ := h.exists_child hx
  rw [hchild, Option.any_some, isDirectory_iff.2 ht] at hentry
  cases hentry

/-- What is written to a file and moved to another name in the same directory is found there. -/
theorem exists_of_replace {made written : Tree} (hhere : m ≠ Route.here) (habove : m ≠ Route.above)
    (hm : ∀ target, made.at? false ⟨ns ++ [m], false⟩ ≠ some (.link target))
    (hn : (∀ target, made.at? false ⟨ns ++ [n], false⟩ ≠ some (.link target)) ∨
      ∀ d, Holds made ns d → d.links = maxLinks)
    (hwritten : made.write ⟨ns ++ [m], false⟩ content = .ok written)
    (hmoved : written.rename ⟨ns ++ [m], false⟩ ⟨ns ++ [n], false⟩ = .ok top) :
    ∃ w, top.follow true ⟨ns ++ [n], false⟩ = .ok w ∧ w.end top = .file content := by
  obtain ⟨d, hd, hmname, hplace, rfl⟩ := exists_writes_of_plain hhere habove hm hwritten
  obtain ⟨d₁, h₁, hnames, hlinks⟩ := hd.write hplace content
  have hfile : (set (.file content) (d.way.names ++ [m]) made).thing? (d₁.way.names ++ [m]) =
      some (.file content) := by
    rw [hnames]
    exact hplace.thing?_set_self _
  obtain ⟨hname, hplain, rfl⟩ := h₁.of_rename (h₁.follow_file hmname hfile false) hmoved
  have hlink : (∀ target, (set (.file content) (d.way.names ++ [m]) made).thing?
      (d₁.way.names ++ [n]) ≠ some (.link target)) ∨ d₁.links = maxLinks := by
    refine hn.imp (fun hn target hx => ?_) fun hn => hlinks.trans (hn d hd)
    by_cases hmn : m = n
    · rw [← hmn, hfile] at hx
      cases hx
    · rw [hnames, hplace.thing?_set (not_concat_isPrefix hmn _)] at hx
      exact hn target (hd.at?_link hname hx)
  obtain ⟨d₂, h₂, hthing⟩ := h₁.move hfile hplain hlink
  exact ⟨_, h₂.follow_file hname hthing true, rfl⟩

end Tree
end PublishDesk
