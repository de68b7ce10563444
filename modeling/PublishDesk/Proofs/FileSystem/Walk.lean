import PublishDesk.FileSystem.Tree
import PublishDesk.Proofs.Program.Outcome

/-!
# Walks through a tree

What a walk does is settled by what stands where: by the kind of what each list of names from the
top leads to (`Tree.thing?`). A walk to a last name is the walk to the directory that holds it and
one more step (`Walks.concat`). And a walk that ends in a directory passes directories and links
only; so it goes the same way in any tree that keeps these (`Walks.congr`).
-/

namespace PublishDesk

/-- The kind of what stands somewhere; what a directory holds is left aside. -/
inductive Thing where
  | file (content : List UInt8)
  | link (target : List UInt8)
  | directory
deriving DecidableEq, Repr

namespace Tree

def thing : Tree → Thing
  | .file content => .file content
  | .link target => .link target
  | .directory _ => .directory

/-- What names from the top lead to, without any link followed. -/
def get? : List FileName → Tree → Option Tree
  | [], t => some t
  | n :: ns, t => (t.child? n).bind (get? ns)

def thing? (ns : List FileName) (t : Tree) : Option Thing := (t.get? ns).map thing

/-- A way follows the entries of directories from the top. -/
inductive Follows (top : Tree) : Way → Prop where
  | nil : Follows top []
  | cons {w : Way} {n : FileName} {t : Tree} (h : Follows top w)
    (hchild : (w.end top).child? n = some t) : Follows top ((n, t) :: w)

/-- A name that an entry of a directory can have. -/
structure IsName (n : FileName) : Prop where
  here : n ≠ Route.here
  above : n ≠ Route.above
  length : n.length ≤ maxNameLength

/-- A walk that arrives, step by step. -/
inductive Walks (top : Tree) (last : Bool) :
    Nat → Way → Bool → List FileName → Arrival → Prop where
  | done {links : Nat} {w : Way} {closed : Bool} :
    Walks top last links w closed [] ⟨w, none, closed, links⟩
  | here {links : Nat} {w : Way} {closed : Bool} {ns : List FileName} {a : Arrival}
    (hdir : (w.end top).isDirectory) (h : Walks top last links w closed ns a) :
    Walks top last links w closed (Route.here :: ns) a
  | above {links : Nat} {e : FileName × Tree} {up : Way} {closed : Bool} {ns : List FileName}
    {a : Arrival} (hdir : (Way.end top (e :: up)).isDirectory)
    (h : Walks top last links up closed ns a) :
    Walks top last links (e :: up) closed (Route.above :: ns) a
  | missing {links : Nat} {w : Way} {closed : Bool} {n : FileName} (hname : IsName n)
    (hdir : (w.end top).isDirectory) (hchild : (w.end top).child? n = none) :
    Walks top last links w closed [n] ⟨w, some n, closed, links⟩
  | stay {links : Nat} {w : Way} {n : FileName} {target : List UInt8} (hname : IsName n)
    (hchild : (w.end top).child? n = some (.link target)) (hlast : last = false) :
    Walks top last links w false [n] ⟨(n, .link target) :: w, none, false, links⟩
  | follow {links : Nat} {w : Way} {closed : Bool} {n : FileName} {ns : List FileName}
    {target : List UInt8} {a : Arrival} (hname : IsName n)
    (hchild : (w.end top).child? n = some (.link target)) (hgo : ns = [] → last ∨ closed)
    (hbelow : target.head? ≠ some Route.slash)
    (h : Walks top last links w (closed || (ns.isEmpty && (Route.ofBytes target).closed))
      ((Route.ofBytes target).names ++ ns) a) :
    Walks top last (links + 1) w closed (n :: ns) a
  | enter {links : Nat} {w : Way} {closed : Bool} {n : FileName} {ns : List FileName} {t : Tree}
    {a : Arrival} (hname : IsName n) (hchild : (w.end top).child? n = some t)
    (hlink : ∀ target, t ≠ .link target) (h : Walks top last links ((n, t) :: w) closed ns a) :
    Walks top last links w closed (n :: ns) a

variable {top top' t u : Tree} {n : FileName} {ns ms : List FileName} {w w' : Way}
  {last closed : Bool} {links : Nat} {a : Arrival}

theorem isDirectory_iff : t.isDirectory ↔ t.thing = .directory := by
  cases t <;> simp [isDirectory, thing]

theorem thing_eq_link {target : List UInt8} : t.thing = .link target ↔ t = .link target := by
  cases t <;> simp [thing]

theorem get?_append (ns ms : List FileName) (t : Tree) :
    t.get? (ns ++ ms) = (t.get? ns).bind (get? ms) := by
  induction ns generalizing t with
  | nil => rfl
  | cons n ns ih =>
    rw [List.cons_append, get?, get?, Option.bind_assoc]
    exact Option.bind_congr fun t _ => ih t

theorem get?_concat (ns : List FileName) (n : FileName) (t : Tree) :
    t.get? (ns ++ [n]) = (t.get? ns).bind (child? n) := by
  rw [get?_append]
  refine Option.bind_congr fun t _ => ?_
  change (t.child? n).bind (get? []) = _
  cases t.child? n <;> rfl

/-! ## Ways -/

theorem names_cons (n : FileName) (t : Tree) (w : Way) :
    Way.names ((n, t) :: w) = w.names ++ [n] := by
  rw [Way.names, List.map_cons, List.reverse_cons, Way.names]

theorem Follows.get? (h : Follows top w) : top.get? w.names = some (w.end top) := by
  induction h with
  | nil => rfl
  | cons h hchild ih =>
    rw [names_cons, get?_concat, ih]
    exact hchild

theorem Follows.thing? (h : Follows top w) : top.thing? w.names = some (w.end top).thing := by
  rw [Tree.thing?, h.get?]
  rfl

theorem Follows.thing?_concat (h : Follows top w) (n : FileName) :
    top.thing? (w.names ++ [n]) = ((w.end top).child? n).map thing := by
  rw [Tree.thing?, get?_concat, h.get?, Option.bind_some]

/-! ## Steps -/

theorem isDirectory_of_child? (h : t.child? n = some u) : t.isDirectory := by
  cases t with
  | directory es => rfl
  | file content => cases h
  | link target => cases h

theorem Walks.walk_eq (h : Walks top last links w closed ns a) :
    walk top last links w closed ns = .ok a := by
  induction h with
  | done => rw [walk]
  | @here _ w _ _ _ hdir h ih =>
    rw [walk.eq_def]
    simp only [hdir, ih, Bool.not_true, Bool.false_eq_true, if_false, if_true]
  | above hdir h ih =>
    have hne : Route.above ≠ Route.here := by decide
    rw [walk.eq_def]
    simp only [hdir, ih, hne, Bool.not_true, Bool.false_eq_true, if_false, if_true]
  | missing hname hdir hchild =>
    rw [walk.eq_def]
    simp only [hdir, hname.here, hname.above, Nat.not_lt.2 hname.length, hchild, Bool.not_true,
      Bool.false_eq_true, if_false, if_true, List.isEmpty_nil]
  | stay hname hchild hlast =>
    rw [walk.eq_def]
    simp only [isDirectory_of_child? hchild, hname.here, hname.above, Nat.not_lt.2 hname.length,
      hchild, hlast, Bool.not_true, Bool.false_eq_true, if_false, if_true, List.isEmpty_nil,
      Bool.not_false, Bool.and_true]
  | @follow _ _ closed _ ns _ _ hname hchild hgo hbelow h ih =>
    have hgo : (ns.isEmpty && !last && !closed) = false := by
      cases ns <;> cases last <;> cases closed <;> simp_all
    rw [walk.eq_def]
    simp only [isDirectory_of_child? hchild, hname.here, hname.above, Nat.not_lt.2 hname.length,
      hchild, hgo, hbelow, ih, Bool.not_true, Bool.false_eq_true, if_false]
  | @enter _ _ _ _ _ t _ hname hchild hlink h ih =>
    rw [walk.eq_def]
    simp only [isDirectory_of_child? hchild, hname.here, hname.above, Nat.not_lt.2 hname.length,
      hchild, Bool.not_true, Bool.false_eq_true, if_false]
    cases t with
    | link target => exact absurd rfl (hlink target)
    | file content => exact ih
    | directory es => exact ih

theorem walks_of_walk (h : walk top last links w closed ns = .ok a) :
    Walks top last links w closed ns a := by
  fun_induction walk top last links w closed ns with
  | case1 links w closed =>
    cases h
    exact .done
  | case2 => cases h
  | case3 links w closed ns hdir ih => exact .here (by simpa using hdir) (ih h)
  | case4 => cases h
  | case5 links closed ns e up hdir _ ih => exact .above (by simpa using hdir) (ih h)
  | case6 => cases h
  | case7 links w closed n ns hdir hhere habove hlength hchild hns =>
    cases h
    obtain rfl := List.isEmpty_iff.1 hns
    exact .missing ⟨hhere, habove, Nat.not_lt.1 hlength⟩ (by simpa using hdir) hchild
  | case8 => cases h
  | case9 links w closed n ns hdir hhere habove hlength target hchild hstay =>
    cases h
    simp only [Bool.and_eq_true, Bool.not_eq_true', List.isEmpty_iff] at hstay
    obtain ⟨⟨rfl, hlast⟩, rfl⟩ := hstay
    exact .stay ⟨hhere, habove, Nat.not_lt.1 hlength⟩ hchild hlast
  | case10 => cases h
  | case11 => cases h
  | case12 w closed n ns hdir hhere habove hlength target hchild hgo links hbelow r ih =>
    refine .follow ⟨hhere, habove, Nat.not_lt.1 hlength⟩ hchild ?_ hbelow (ih h)
    rintro rfl
    cases last <;> cases closed <;> simp_all
  | case13 links w closed n ns hdir hhere habove hlength t hlink hchild ih =>
    exact .enter ⟨hhere, habove, Nat.not_lt.1 hlength⟩ hchild hlink (ih h)

theorem walk_eq_ok_iff : walk top last links w closed ns = .ok a ↔
    Walks top last links w closed ns a :=
  ⟨walks_of_walk, Walks.walk_eq⟩

theorem Walks.follows (h : Walks top last links w closed ns a) (hw : Follows top w) :
    Follows top a.way := by
  induction h with
  | done => exact hw
  | here hdir h ih => exact ih hw
  | above hdir h ih =>
    cases hw with
    | cons hw hchild => exact ih hw
  | missing hname hdir hchild => exact hw
  | stay hname hchild hlast => exact hw.cons hchild
  | follow hname hchild hgo hbelow h ih => exact ih hw
  | enter hname hchild hlink h ih => exact ih (hw.cons hchild)

theorem Walks.links_le (h : Walks top last links w closed ns a) : a.links ≤ links :=
  walk_links h.walk_eq

/-- What asks for a directory goes on to do so. -/
theorem Walks.closed_eq (h : Walks top last links w closed ns a) (hclosed : closed = true) :
    a.closed = true := by
  induction h with
  | done => exact hclosed
  | here hdir h ih => exact ih hclosed
  | above hdir h ih => exact ih hclosed
  | missing => exact hclosed
  | stay => cases hclosed
  | follow hname hchild hgo hbelow h ih => exact ih (by rw [hclosed, Bool.true_or])
  | enter hname hchild hlink h ih => exact ih hclosed

/-- Where there is no directory, only the empty walk arrives. -/
theorem Walks.eq_nil (h : Walks top last links w closed ns a) (hend : ¬(w.end top).isDirectory) :
    ns = [] ∧ a = ⟨w, none, closed, links⟩ := by
  cases h with
  | done => exact ⟨rfl, rfl⟩
  | here hdir => exact absurd hdir hend
  | above hdir => exact absurd hdir hend
  | missing hname hdir => exact absurd hdir hend
  | stay hname hchild => exact absurd (isDirectory_of_child? hchild) hend
  | follow hname hchild => exact absurd (isDirectory_of_child? hchild) hend
  | enter hname hchild => exact absurd (isDirectory_of_child? hchild) hend

theorem follow_eq_ok {r : Route} : top.follow last r = .ok w ↔
    ∃ a, Walks top last maxLinks [] r.closed r.names a ∧ a.missing = none ∧
      (a.closed → (a.way.end top).isDirectory) ∧ a.way = w := by
  rw [follow, bind_eq_ok]
  refine exists_congr fun a => and_congr walk_eq_ok_iff ?_
  obtain ⟨way, missing, closed, links⟩ := a
  cases missing with
  | some n => exact ⟨nofun, fun h => nomatch h.1⟩
  | none =>
    rw [if_neg (by simp)]
    cases closed with
    | false =>
      exact ⟨fun h => ⟨rfl, nofun, Except.ok.inj h⟩, fun h => congrArg Except.ok h.2.2⟩
    | true =>
      cases hend : (way.end top).isDirectory with
      | false => exact ⟨nofun, fun h => nomatch h.2.1 rfl⟩
      | true =>
        exact ⟨fun h => ⟨rfl, fun _ => rfl, Except.ok.inj h⟩, fun h => congrArg Except.ok h.2.2⟩

/-! ## The last step -/

/-- A walk with a name ahead passes the directory that holds it. -/
theorem Walks.exists_directory (h : Walks top last links w closed (ns ++ n :: ms) a) :
    ∃ d, Walks top true links w true ns d ∧ d.missing = none ∧
      Walks top last d.links d.way closed (n :: ms) a := by
  generalize hks : ns ++ n :: ms = ks at h
  induction h generalizing ns with
  | done => cases List.append_ne_nil_of_right_ne_nil ns (List.cons_ne_nil n ms) hks
  | here hdir h ih =>
    cases ns with
    | nil =>
      cases hks
      exact ⟨_, .done, rfl, .here hdir h⟩
    | cons m ns =>
      cases hks
      obtain ⟨d, hd, hmissing, hlast⟩ := ih rfl
      exact ⟨d, .here hdir hd, hmissing, hlast⟩
  | above hdir h ih =>
    cases ns with
    | nil =>
      cases hks
      exact ⟨_, .done, rfl, .above hdir h⟩
    | cons m ns =>
      cases hks
      obtain ⟨d, hd, hmissing, hlast⟩ := ih rfl
      exact ⟨d, .above hdir hd, hmissing, hlast⟩
  | missing hname hdir hchild =>
    cases ns with
    | nil =>
      cases hks
      exact ⟨_, .done, rfl, .missing hname hdir hchild⟩
    | cons m ns => exact absurd (List.cons.inj hks).2 (by simp)
  | stay hname hchild hlast =>
    cases ns with
    | nil =>
      cases hks
      exact ⟨_, .done, rfl, .stay hname hchild hlast⟩
    | cons m ns => exact absurd (List.cons.inj hks).2 (by simp)
  | @follow _ _ closed _ _ target _ hname hchild hgo hbelow h ih =>
    cases ns with
    | nil =>
      cases hks
      exact ⟨_, .done, rfl, .follow hname hchild hgo hbelow h⟩
    | cons m ns =>
      rw [List.cons_append] at hks
      obtain ⟨rfl, rfl⟩ := List.cons.inj hks
      obtain ⟨d, hd, hmissing, hlast⟩ := ih (List.append_assoc ..)
      have hempty : (ns ++ n :: ms).isEmpty = false := by simp
      rw [hempty, Bool.false_and, Bool.or_false] at hlast
      exact ⟨d, .follow hname hchild (fun _ => .inl rfl) hbelow hd, hmissing, hlast⟩
  | enter hname hchild hlink h ih =>
    cases ns with
    | nil =>
      cases hks
      exact ⟨_, .done, rfl, .enter hname hchild hlink h⟩
    | cons m ns =>
      cases hks
      obtain ⟨d, hd, hmissing, hlast⟩ := ih rfl
      exact ⟨d, .enter hname hchild hlink hd, hmissing, hlast⟩

theorem Walks.concat {d : Arrival} (h : Walks top true links w true ns d) (hd : d.missing = none)
    (hlast : Walks top last d.links d.way closed [n] a) :
    Walks top last links w closed (ns ++ [n]) a := by
  obtain ⟨c, hc, hwalk⟩ : ∃ c, c = true ∧ Walks top true links w c ns d := ⟨true, rfl, h⟩
  clear h
  induction hwalk with
  | done => exact hlast
  | here hdir h ih => exact .here hdir (ih hd hlast hc)
  | above hdir h ih => exact .above hdir (ih hd hlast hc)
  | missing => cases hd
  | stay hname hchild hstay => cases hstay
  | @follow _ _ _ _ ns _ _ hname hchild hgo hbelow h ih =>
    rw [List.cons_append]
    refine .follow hname hchild (fun h => ?_) hbelow ?_
    · exact absurd h (List.append_ne_nil_of_right_ne_nil ns (List.cons_ne_nil n []))
    · have hempty : (ns ++ [n]).isEmpty = false := by simp
      rw [hempty, Bool.false_and, Bool.or_false, ← List.append_assoc]
      exact ih hd hlast (by rw [hc, Bool.true_or])
  | enter hname hchild hlink h ih => exact .enter hname hchild hlink (ih hd hlast hc)

/-! ## The same walk otherwise -/

/-- Whether a walk that follows all links asks for a directory makes no difference to where it
leads. -/
theorem Walks.exists_closed (h : Walks top true links w closed ns a) (closed' : Bool) :
    ∃ c, Walks top true links w closed' ns ⟨a.way, a.missing, c, a.links⟩ := by
  induction h generalizing closed' with
  | done => exact ⟨_, .done⟩
  | here hdir h ih => exact (ih closed').imp fun _ => .here hdir
  | above hdir h ih => exact (ih closed').imp fun _ => .above hdir
  | missing hname hdir hchild => exact ⟨_, .missing hname hdir hchild⟩
  | stay hname hchild hlast => cases hlast
  | follow hname hchild hgo hbelow h ih =>
    exact (ih _).imp fun _ => .follow hname hchild (fun _ => .inl rfl) hbelow
  | enter hname hchild hlink h ih => exact (ih closed').imp fun _ => .enter hname hchild hlink

/-- Nor does it make one that more links may be followed. -/
theorem Walks.more (h : Walks top last links w closed ns a) (k : Nat) :
    Walks top last (links + k) w closed ns ⟨a.way, a.missing, a.closed, a.links + k⟩ := by
  induction h with
  | done => exact .done
  | here hdir h ih => exact .here hdir ih
  | above hdir h ih => exact .above hdir ih
  | missing hname hdir hchild => exact .missing hname hdir hchild
  | stay hname hchild hlast => exact .stay hname hchild hlast
  | @follow links _ _ _ _ _ _ hname hchild hgo hbelow h ih =>
    rw [Nat.add_right_comm links 1 k]
    exact .follow hname hchild hgo hbelow ih
  | enter hname hchild hlink h ih => exact .enter hname hchild hlink ih

/-- So there is one place that names lead to. -/
theorem Walks.unique {links' : Nat} {closed' : Bool} {b : Arrival}
    (h : Walks top true links w closed ns a) (h' : Walks top true links' w closed' ns b) :
    b.way = a.way ∧ b.missing = a.missing := by
  obtain ⟨c, hc⟩ := (h.more links').exists_closed false
  obtain ⟨c', hc'⟩ := (h'.more links).exists_closed false
  rw [Nat.add_comm links' links] at hc'
  obtain ⟨hway, hmissing, -⟩ :=
    Arrival.mk.inj (Except.ok.inj (hc'.walk_eq.symm.trans hc.walk_eq))
  exact ⟨hway, hmissing⟩

/-- There is one way to follow names. -/
theorem Follows.unique (h : Follows top w) (h' : Follows top w') (hnames : w'.names = w.names) :
    w' = w := by
  induction h generalizing w' with
  | nil =>
    cases h' with
    | nil => rfl
    | cons => exact absurd (congrArg List.length hnames) (by simp [Way.names])
  | cons h hchild ih =>
    cases h' with
    | nil => exact absurd (congrArg List.length hnames) (by simp [Way.names])
    | cons h' hchild' =>
      rw [names_cons, names_cons] at hnames
      obtain ⟨hnames, hn⟩ := List.append_inj' hnames rfl
      obtain rfl := ih h' hnames
      obtain rfl := List.singleton_inj.1 hn
      rw [Option.some.inj (hchild'.symm.trans hchild)]

/-! ## Trees in which a walk goes the same way -/

/-- Where a directory stands at the end of a way, one stands at the end of the same way in a tree
that keeps directories. -/
theorem Follows.isDirectory_congr (hw : Follows top w) (hw' : Follows top' w')
    (hnames : w'.names = w.names)
    (hdir : ∀ q, top.thing? q = some .directory → top'.thing? q = some .directory)
    (h : (w.end top).isDirectory) : (w'.end top').isDirectory := by
  have hthing := hdir _ (hw.thing?.trans (congrArg some (isDirectory_iff.1 h)))
  rw [← hnames, hw'.thing?] at hthing
  exact isDirectory_iff.2 (Option.some.inj hthing)

/-- The entry of a directory is kept if what names lead to is kept. -/
theorem Follows.exists_child (hw : Follows top w) (hw' : Follows top' w')
    (hnames : w'.names = w.names) (hchild : (w.end top).child? n = some t)
    (hkeep : top.thing? (w.names ++ [n]) = some t.thing →
      top'.thing? (w.names ++ [n]) = some t.thing) :
    ∃ t', (w'.end top').child? n = some t' ∧ t'.thing = t.thing := by
  have hthing := hkeep ((hw.thing?_concat n).trans (congrArg (Option.map thing) hchild))
  rw [← hnames, hw'.thing?_concat] at hthing
  exact Option.map_eq_some_iff.1 hthing

/-- A walk that ends in a directory goes the same way in a tree that keeps directories and links.
If no link is followed, directories are enough. -/
theorem Walks.congr (h : Walks top true links w closed ns a) (hmissing : a.missing = none)
    (hend : (a.way.end top).isDirectory)
    (hdir : ∀ q, top.thing? q = some .directory → top'.thing? q = some .directory)
    (hlink : (∀ q target, top.thing? q = some (.link target) →
      top'.thing? q = some (.link target)) ∨ a.links = links)
    (hw : Follows top w) (hw' : Follows top' w') (hnames : w'.names = w.names) :
    ∃ a', Walks top' true links w' closed ns a' ∧ a'.way.names = a.way.names ∧
      a'.missing = none ∧ a'.links = a.links := by
  induction h generalizing w' with
  | done => exact ⟨_, .done, hnames, rfl, rfl⟩
  | here h₀ h ih =>
    obtain ⟨a', h', hway⟩ := ih hmissing hend hlink hw hw' hnames
    exact ⟨a', .here (hw.isDirectory_congr hw' hnames hdir h₀) h', hway⟩
  | above h₀ h ih =>
    have h₀' := hw.isDirectory_congr hw' hnames hdir h₀
    cases hw with
    | cons hw hchild =>
      cases hw' with
      | nil => exact absurd (congrArg List.length hnames) (by simp [Way.names])
      | cons hw' hchild' =>
        rw [names_cons, names_cons] at hnames
        obtain ⟨a', h', hway⟩ := ih hmissing hend hlink hw hw' (List.append_inj_left' hnames rfl)
        exact ⟨a', .above h₀' h', hway⟩
  | missing => cases hmissing
  | stay hname hchild hlast => cases hlast
  | follow hname hchild hgo hbelow h ih =>
    rcases hlink with hlink | hlinks
    · obtain ⟨t', hchild', hthing⟩ := hw.exists_child hw' hnames hchild (hlink _ _)
      obtain ⟨a', h', hway⟩ := ih hmissing hend (.inl hlink) hw hw' hnames
      cases t' with
      | link target =>
        cases hthing
        exact ⟨a', .follow hname hchild' hgo hbelow h', hway⟩
      | file content => cases hthing
      | directory es => cases hthing
    · exact absurd h.links_le (by omega)
  | @enter _ _ _ _ _ t _ hname hchild hlink' h ih =>
    by_cases ht : t.isDirectory
    · obtain ⟨t', hchild', hthing⟩ :=
        hw.exists_child hw' hnames hchild (isDirectory_iff.1 ht ▸ hdir _)
      have ht' : t'.isDirectory := isDirectory_iff.2 (hthing.trans (isDirectory_iff.1 ht))
      obtain ⟨a', h', hway⟩ := ih hmissing hend hlink (hw.cons hchild) (hw'.cons hchild')
        (by rw [names_cons, names_cons, hnames])
      refine ⟨a', .enter hname hchild' ?_ h', hway⟩
      rintro target rfl
      cases ht'
    · obtain ⟨-, rfl⟩ := h.eq_nil ht
      exact absurd hend ht

end Tree
end PublishDesk
