import PublishDesk.Proofs.FileSystem.Replace
import PublishDesk.Proofs.Program.Lookup

/-!
# Entries in any order

In a directory no two entries have one name. So what a name leads to is the entry of that name,
wherever it is listed, and trees that list their entries in different orders have the same things at
the same places (`Reordered.thing?_eq`).
-/

namespace PublishDesk.Tree

/-- No directory has two entries of one name. -/
inductive Distinct : Tree → Prop where
  | file (content : List UInt8) : Distinct (.file content)
  | link (target : List UInt8) : Distinct (.link target)
  | directory {es : List (FileName × Tree)} (hnames : (es.map (·.1)).Nodup)
    (hentries : ∀ e ∈ es, Distinct e.2) : Distinct (.directory es)

/-- Two trees differ at most in the order in which directories list their entries. -/
inductive Reordered : Tree → Tree → Prop where
  | refl (t : Tree) : Reordered t t
  | entries {es fs : List (FileName × Tree)} (h : es.Perm fs) :
    Reordered (.directory es) (.directory fs)
  | entry {es fs : List (FileName × Tree)} {n : FileName} {t u : Tree} (h : Reordered t u) :
    Reordered (.directory (es ++ (n, t) :: fs)) (.directory (es ++ (n, u) :: fs))
  | trans {t u v : Tree} (h : Reordered t u) (h' : Reordered u v) : Reordered t v

variable {t u : Tree} {n : FileName} {es fs : List (FileName × Tree)}

theorem Distinct.nodup (h : Distinct (.directory es)) : (es.map (·.1)).Nodup := by
  cases h with
  | directory hnames => exact hnames

theorem Distinct.entry (h : Distinct (.directory es)) (hmem : (n, t) ∈ es) : t.Distinct := by
  cases h with
  | directory _ hentries => exact hentries _ hmem

theorem Reordered.distinct (h : Reordered t u) (ht : t.Distinct) : u.Distinct := by
  induction h with
  | refl => exact ht
  | entries hperm =>
    exact .directory ((hperm.map _).nodup_iff.1 ht.nodup)
      fun e he => ht.entry (hperm.mem_iff.2 he)
  | @entry es fs n t u h ih =>
    refine .directory (by simpa using ht.nodup) fun e he => ?_
    rcases List.mem_append.1 he with he | he
    · exact ht.entry (List.mem_append_left _ he)
    · rcases List.mem_cons.1 he with rfl | he
      · exact ih (ht.entry (List.mem_append_right _ List.mem_cons_self))
      · exact ht.entry (List.mem_append_right _ (List.mem_cons_of_mem _ he))
  | trans h h' ih ih' => exact ih' (ih ht)

theorem Reordered.thing?_eq (h : Reordered t u) (ht : t.Distinct) (ns : List FileName) :
    t.thing? ns = u.thing? ns := by
  induction h generalizing ns with
  | refl => rfl
  | entries hperm =>
    cases ns with
    | nil => rfl
    | cons m ns =>
      rw [thing?_cons_directory, thing?_cons_directory, lookup_eq_of_perm ht.nodup hperm]
  | @entry es fs n t u h ih =>
    cases ns with
    | nil => rfl
    | cons m ns =>
      have htu := ih (ht.entry (List.mem_append_right _ List.mem_cons_self)) ns
      rw [thing?_cons_directory, thing?_cons_directory, List.lookup_append, List.lookup_append,
        List.lookup_cons, List.lookup_cons]
      cases es.lookup m with
      | some v => rfl
      | none =>
        cases m == n with
        | true => exact htu
        | false => rfl
  | trans h h' ih ih' => rw [ih ht, ih' (h.distinct ht)]

end PublishDesk.Tree
