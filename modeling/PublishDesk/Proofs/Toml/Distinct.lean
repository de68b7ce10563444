import PublishDesk.Proofs.Program.Lookup
import PublishDesk.Toml.Document

/-!
# Keys of a document

Whatever a text writes, no table of its document has two entries with the same key
(`Document.distinct_of_read?`). The reader keeps its tables so at every token (`State.Distinct`),
since it looks a key up before it puts an entry there.
-/

namespace PublishDesk.Toml

/-! ## Tables with distinct keys -/

/-- All tables in a value have distinct keys. -/
inductive Value.Distinct : Value → Prop where
  | text (t : List Char) : Distinct (.text t)
  | flag (b : Bool) : Distinct (.flag b)
  | integer (i : Option Int) : Distinct (.integer i)
  | floating (x : Option Decimal.Binary64) : Distinct (.floating x)
  | moment (t : List Char) : Distinct (.moment t)
  | array {items : List Value} (hitems : ∀ v ∈ items, v.Distinct) : Distinct (.array items)
  | table {entries : List (Key × Value)} (hkeys : (entries.map Prod.fst).Nodup)
      (hvalues : ∀ e ∈ entries, e.2.Distinct) : Distinct (.table entries)

/-- All tables of a node have distinct keys. -/
inductive Node.Distinct : Node → Prop where
  | value {v : Value} (hv : v.Distinct) : Distinct (.value v)
  | table {o : Origin} {t : List (Key × Node)} (hkeys : (t.map Prod.fst).Nodup)
      (hnodes : ∀ e ∈ t, e.2.Distinct) : Distinct (.table o t)
  | tables {last : List (Key × Node)} {before : List (List (Key × Node))}
      (hkeys : ∀ t ∈ last :: before, (t.map Prod.fst).Nodup)
      (hnodes : ∀ t ∈ last :: before, ∀ e ∈ t, e.2.Distinct) : Distinct (.tables last before)

/-- All tables of entries have distinct keys, and the entries themselves have. -/
structure Entries.Distinct (t : Entries) : Prop where
  keys : (t.map Prod.fst).Nodup
  nodes : ∀ e ∈ t, e.2.Distinct

namespace Node

theorem distinct_table_iff {o : Origin} {t : Entries} : Distinct (.table o t) ↔ t.Distinct := by
  constructor
  · rintro (_ | ⟨hkeys, hnodes⟩)
    exact ⟨hkeys, hnodes⟩
  · exact fun h => .table h.keys h.nodes

theorem distinct_tables_iff {last : Entries} {before : List Entries} :
    Distinct (.tables last before) ↔ ∀ t ∈ last :: before, t.Distinct := by
  constructor
  · rintro (_ | _ | ⟨hkeys, hnodes⟩) t ht
    exact ⟨hkeys t ht, hnodes t ht⟩
  · exact fun h => .tables (fun t ht => (h t ht).keys) fun t ht => (h t ht).nodes

end Node

theorem entryValues_eq (t : Entries) : entryValues t = t.map fun e => (e.1, e.2.toValue) := by
  induction t with
  | nil => rfl
  | cons e t ih => rw [entryValues, ih, List.map_cons]

theorem tableValues_eq (ts : List Entries) : tableValues ts = ts.map Entries.toValue := by
  induction ts with
  | nil => rfl
  | cons t ts ih => rw [tableValues, ih, List.map_cons, Entries.toValue]

/-- Entries in another order are as distinct. -/
theorem distinct_toValue {t : Entries} (hkeys : (t.map Prod.fst).Nodup)
    (hvalues : ∀ e ∈ t, e.2.toValue.Distinct) : t.toValue.Distinct := by
  have hperm : (sorted (entryValues t)).Perm (t.map fun e => (e.1, e.2.toValue)) := by
    rw [← entryValues_eq]
    exact List.mergeSort_perm ..
  refine .table ?_ fun e he => ?_
  · rw [(hperm.map Prod.fst).nodup_iff, List.map_map]
    exact hkeys
  · obtain ⟨e', he', rfl⟩ := List.mem_map.1 (hperm.mem_iff.1 he)
    exact hvalues e' he'

theorem Node.Distinct.toValue {n : Node} (h : n.Distinct) : n.toValue.Distinct := by
  induction h with
  | value hv => exact hv
  | table hkeys _ ih => exact distinct_toValue hkeys ih
  | @tables last before hkeys _ ih =>
    have hvalue : (Node.tables last before).toValue =
        .array ((last :: before).map Entries.toValue).reverse := by
      rw [Node.toValue, tableValues_eq, List.map_cons, Entries.toValue]
    rw [hvalue]
    refine .array fun v hv => ?_
    obtain ⟨t, ht, rfl⟩ := List.mem_map.1 (List.mem_reverse.1 hv)
    exact distinct_toValue (hkeys t ht) (ih t ht)

namespace Entries

variable {t t' : Entries} {k : Key} {n : Node}

theorem Distinct.toValue (h : t.Distinct) : t.toValue.Distinct :=
  distinct_toValue h.keys fun e he => (h.nodes e he).toValue

theorem Distinct.nil : Distinct [] := ⟨.nil, nofun⟩

theorem Distinct.find? (h : t.Distinct) (hn : t.find? k = some n) : n.Distinct :=
  h.nodes _ (mem_of_lookup_eq_some hn)

theorem mem_put {e : Key × Node} (he : e ∈ t.put k n) : e = (k, n) ∨ e ∈ t := by
  induction t with
  | nil => exact .inl (List.mem_singleton.1 he)
  | cons e' t ih =>
    rw [put] at he
    split at he
    · exact (List.mem_cons.1 he).imp_right (.tail _)
    · rcases List.mem_cons.1 he with rfl | he
      · exact .inr (.head _)
      · exact (ih he).imp_right (.tail _)

theorem nodup_put (h : (t.map Prod.fst).Nodup) : ((t.put k n).map Prod.fst).Nodup := by
  induction t with
  | nil => exact List.nodup_singleton k
  | cons e t ih =>
    obtain ⟨hhead, htail⟩ := List.nodup_cons.1 h
    rw [put]
    split
    · next hk => exact hk ▸ h
    · next hk =>
      refine List.nodup_cons.2 ⟨fun hmem => ?_, ih htail⟩
      obtain ⟨e', he', hkey⟩ := List.mem_map.1 hmem
      rcases mem_put he' with rfl | he'
      · exact hk hkey.symm
      · exact hhead (List.mem_map.2 ⟨e', he', hkey⟩)

theorem Distinct.put (h : t.Distinct) (hn : n.Distinct) : (t.put k n).Distinct := by
  refine ⟨nodup_put h.keys, fun e he => ?_⟩
  rcases mem_put he with rfl | he
  · exact hn
  · exact h.nodes e he

/-! ## The pieces of a document -/

/-- A change of a table keeps its keys distinct. -/
def Keeps (f : Entries → Option Entries) : Prop :=
  ∀ {t t'}, Distinct t → f t = some t' → t'.Distinct

theorem keeps_openTable (k : Key) : Keeps (openTable k) := by
  intro t t' h ht
  rw [openTable] at ht
  split at ht
  · cases ht
    exact h.put (.table .nil nofun)
  · next hfind =>
    cases ht
    exact h.put (Node.distinct_table_iff.2 (Node.distinct_table_iff.1 (h.find? hfind)))
  · cases ht

theorem keeps_openNext (k : Key) : Keeps (openNext k) := by
  intro t t' h ht
  rw [openNext] at ht
  split at ht
  · cases ht
    exact h.put (Node.distinct_tables_iff.2 (List.forall_mem_singleton.2 .nil))
  · next hfind =>
    cases ht
    have hbefore := Node.distinct_tables_iff.1 (h.find? hfind)
    exact h.put (Node.distinct_tables_iff.2 (List.forall_mem_cons.2 ⟨.nil, hbefore⟩))
  · cases ht

theorem Keeps.alter {f : Entries → Option Entries} (hf : Keeps f) (path : List Key) :
    Keeps (alter f path) := by
  induction path with
  | nil => exact hf
  | cons k path ih =>
    intro t t' h ht
    rw [Entries.alter] at ht
    split at ht
    · obtain ⟨s, hs, rfl⟩ := Option.map_eq_some_iff.1 ht
      exact h.put (Node.distinct_table_iff.2 (ih .nil hs))
    · next hfind =>
      obtain ⟨s, hs, rfl⟩ := Option.map_eq_some_iff.1 ht
      exact h.put (Node.distinct_table_iff.2 (ih (Node.distinct_table_iff.1 (h.find? hfind)) hs))
    · next hfind =>
      obtain ⟨s, hs, rfl⟩ := Option.map_eq_some_iff.1 ht
      obtain ⟨hlast, hbefore⟩ :=
        List.forall_mem_cons.1 (Node.distinct_tables_iff.1 (h.find? hfind))
      exact h.put (Node.distinct_tables_iff.2 (List.forall_mem_cons.2 ⟨ih hlast hs, hbefore⟩))
    · cases ht

theorem keeps_insert {v : Value} (hv : v.Distinct) (path : List Key) : Keeps (insert v path) := by
  induction path with
  | nil => exact nofun
  | cons k path ih =>
    intro t t' h ht
    cases path with
    | nil =>
      rw [insert] at ht
      split at ht
      · cases ht
        exact h.put (.value hv)
      · cases ht
    | cons k' path =>
      rw [insert] at ht
      · split at ht
        · obtain ⟨s, hs, rfl⟩ := Option.map_eq_some_iff.1 ht
          exact h.put (Node.distinct_table_iff.2 (ih .nil hs))
        · next hfind =>
          split at ht
          · obtain ⟨s, hs, rfl⟩ := Option.map_eq_some_iff.1 ht
            have htable := Node.distinct_table_iff.1 (h.find? hfind)
            exact h.put (Node.distinct_table_iff.2 (ih htable hs))
          · cases ht
        · next hfind =>
          split at ht
          · cases ht
          · obtain ⟨s, hs, rfl⟩ := Option.map_eq_some_iff.1 ht
            obtain ⟨hlast, hbefore⟩ :=
              List.forall_mem_cons.1 (Node.distinct_tables_iff.1 (h.find? hfind))
            exact h.put (Node.distinct_tables_iff.2 (List.forall_mem_cons.2 ⟨ih hlast hs, hbefore⟩))
        · cases ht
      · exact nofun

end Entries

/-! ## The reader -/

/-- A value without quotes or brackets holds no table. -/
theorem Value.distinct_of_ofBare? {cs : List Char} {v : Value} (h : ofBare? cs = some v) :
    v.Distinct := by
  rw [ofBare?] at h
  split at h
  · cases h
    exact .flag true
  split at h
  · cases h
    exact .flag false
  cases hint : integer? cs with
  | some i =>
    rw [hint] at h
    cases h
    exact .integer i
  | none =>
    cases hfloat : floating? cs with
    | some x =>
      rw [hint, hfloat] at h
      cases h
      exact .floating x
    | none =>
      rw [hint, hfloat] at h
      obtain ⟨-, hv⟩ := Option.ite_none_right_eq_some.1 h
      cases hv
      exact .moment cs

/-- All tables that a value will be put into have distinct keys. -/
def Hole.Distinct : Hole → Prop
  | .line _ => True
  | .item done outer => (∀ v ∈ done, v.Distinct) ∧ outer.Distinct
  | .member done _ outer => done.Distinct ∧ outer.Distinct

def Purpose.Distinct : Purpose → Prop
  | .table | .tables | .line => True
  | .member done outer => done.Distinct ∧ outer.Distinct

def Position.Distinct : Position → Prop
  | .lineStart | .headerStart | .headerEnd _ | .lineEnd => True
  | .key p _ | .afterKey p _ => p.Distinct
  | .equalsSign hole | .value hole | .bare hole _ | .afterDate hole _ => hole.Distinct
  | .item done outer | .afterItem done outer => (∀ v ∈ done, v.Distinct) ∧ outer.Distinct
  | .member done outer | .afterMember done outer => done.Distinct ∧ outer.Distinct

namespace State

/-- All tables read so far have distinct keys. -/
structure Distinct (s : State) : Prop where
  root : s.root.Distinct
  position : s.position.Distinct

variable {s s' : State} {v : Value} {hole : Hole} {t : Token}

theorem Distinct.goto {p : Position} (h : s.Distinct) (hp : p.Distinct) : (s.goto p).Distinct :=
  ⟨h.root, hp⟩

theorem Distinct.fill (h : s.Distinct) (hv : v.Distinct) (hhole : hole.Distinct)
    (hs : s.fill v hole = some s') : s'.Distinct := by
  cases hole with
  | line path =>
    obtain ⟨root, hroot, rfl⟩ := Option.map_eq_some_iff.1 hs
    exact ⟨Entries.Keeps.alter (Entries.keeps_insert hv path) s.header h.root hroot, trivial⟩
  | item done outer =>
    cases hs
    exact h.goto ⟨List.forall_mem_cons.2 ⟨hv, hhole.1⟩, hhole.2⟩
  | member done path outer =>
    obtain ⟨done', hdone, rfl⟩ := Option.map_eq_some_iff.1 hs
    exact h.goto ⟨Entries.keeps_insert hv path hhole.1 hdone, hhole.2⟩

theorem Distinct.enter {opening : Key → Entries → Option Entries}
    (hopening : ∀ k, Entries.Keeps (opening k)) (h : s.Distinct) {path : List Key}
    (hs : s.enter opening path = some s') : s'.Distinct := by
  obtain ⟨k, -, hs⟩ := Option.bind_eq_some_iff.1 hs
  obtain ⟨root, hroot, hs⟩ := Option.bind_eq_some_iff.1 hs
  cases hs
  exact ⟨Entries.Keeps.alter (hopening k) path.dropLast h.root hroot, trivial⟩

theorem Distinct.take (h : s.Distinct) (hs : s.take hole t = some s') (hhole : hole.Distinct) :
    s'.Distinct := by
  rw [State.take.eq_def] at hs
  split at hs
  · exact h.fill (.text _) hhole hs
  · exact h.fill (.text _) hhole hs
  · cases hs
    exact h.goto hhole
  · split at hs
    · cases hs
      exact h.goto ⟨nofun, hhole⟩
    · cases hs
  · split at hs
    · cases hs
      exact h.goto ⟨.nil, hhole⟩
    · cases hs
  · cases hs

theorem Distinct.goto_key {f : Key → Position} (h : s.Distinct)
    (hs : ((key? t).map fun k => s.goto (f k)) = some s') (hf : ∀ k, (f k).Distinct) :
    s'.Distinct := by
  obtain ⟨k, -, rfl⟩ := Option.map_eq_some_iff.1 hs
  exact h.goto (hf k)

theorem Distinct.close_array {done : List Value} {outer : Hole} (h : s.Distinct)
    (hp : (∀ v ∈ done, v.Distinct) ∧ outer.Distinct)
    (hs : s.fill (.array done.reverse) outer = some s') : s'.Distinct :=
  h.fill (.array fun v hv => hp.1 v (List.mem_reverse.1 hv)) hp.2 hs

theorem Distinct.close_table {done : Entries} {outer : Hole} (h : s.Distinct)
    (hp : done.Distinct ∧ outer.Distinct) (hs : s.fill done.toValue outer = some s') :
    s'.Distinct :=
  h.fill hp.1.toValue hp.2 hs

theorem Distinct.step (h : s.Distinct) (hs : s.step t = some s') : s'.Distinct := by
  have hp := h.position
  rw [State.step.eq_def] at hs
  generalize s.position = p at hp hs
  split at hs
  -- Most tokens only move on, with what the position holds; each of the others has its own lemma.
  all_goals first
    | exact Option.some.inj hs ▸ h
    | exact Option.some.inj hs ▸ h.goto trivial
    | exact Option.some.inj hs ▸ h.goto hp
    | exact h.goto_key hs fun _ => trivial
    | exact h.goto_key hs fun _ => hp
    | exact h.goto_key (Option.ite_none_right_eq_some.1 hs).2 fun _ => hp
    | exact h.enter Entries.keeps_openTable hs
    | exact h.enter Entries.keeps_openNext hs
    | exact h.take hs hp
    | exact h.close_array hp hs
    | exact h.close_table hp hs
    | exact (Option.some_ne_none s' hs.symm).elim

theorem Distinct.settle (h : s.Distinct) (hs : s.settle = some s') : s'.Distinct := by
  have hp := h.position
  rw [State.settle.eq_def] at hs
  generalize s.position = p at hp hs
  split at hs
  · obtain ⟨v, hv, hs⟩ := Option.bind_eq_some_iff.1 hs
    exact h.fill (Value.distinct_of_ofBare? hv) hp hs
  · obtain ⟨v, hv, hs⟩ := Option.bind_eq_some_iff.1 hs
    exact h.fill (Value.distinct_of_ofBare? hv) hp hs
  · exact Option.some.inj hs ▸ h

theorem Distinct.settle_step (h : s.Distinct) (hs : s.settle.bind (·.step t) = some s') :
    s'.Distinct := by
  obtain ⟨s₁, hs₁, hs⟩ := Option.bind_eq_some_iff.1 hs
  exact (h.settle hs₁).step hs

theorem Distinct.next (h : s.Distinct) (hs : s.next t = some s') : s'.Distinct := by
  have hp := h.position
  rw [State.next.eq_def] at hs
  generalize s.position = p at hp hs
  split at hs
  · exact Option.some.inj hs ▸ h.goto hp
  · exact Option.some.inj hs ▸ h.goto hp
  · split at hs
    · exact Option.some.inj hs ▸ h.goto hp
    · exact h.settle_step hs
  · exact Option.some.inj hs ▸ h.goto hp
  · exact h.settle_step hs

theorem Distinct.run {ts : List Token} (h : s.Distinct) (hs : s.run ts = some s') :
    s'.Distinct := by
  induction ts generalizing s with
  | nil => exact Option.some.inj hs ▸ h
  | cons t ts ih =>
    obtain ⟨s₁, hs₁, hs⟩ := Option.bind_eq_some_iff.1 hs
    exact ih (h.next hs₁) hs

theorem Distinct.finish? (h : s.Distinct) (hs : s.finish? = some v) : v.Distinct := by
  obtain ⟨s₁, hs₁, hs⟩ := Option.bind_eq_some_iff.1 hs
  split at hs
  · exact Option.some.inj hs ▸ (h.settle hs₁).root.toValue
  · exact Option.some.inj hs ▸ (h.settle hs₁).root.toValue
  · cases hs

end State

/-- Whatever a text writes, the tables of its document have distinct keys. -/
theorem Document.distinct_of_read? {cs : List Char} {v : Value} (h : read? cs = some v) :
    v.Distinct := by
  have hstart : State.start.Distinct := ⟨.nil, trivial⟩
  obtain ⟨ts, -, h⟩ := Option.bind_eq_some_iff.1 h
  obtain ⟨s, hs, h⟩ := Option.bind_eq_some_iff.1 h
  exact (hstart.run hs).finish? h

end PublishDesk.Toml
