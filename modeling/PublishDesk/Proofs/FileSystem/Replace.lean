import Mathlib.Data.List.Basic
import PublishDesk.Proofs.FileSystem.Walk

/-!
# Entries put in a tree and removed from it

Putting something in an entry, or removing the entry, changes what names lead to only for the names
of the entry and those below. If the entry is not a directory there is nothing below, so every
directory is kept, and every link but the one that is replaced.
-/

namespace PublishDesk.Tree

variable {top t leaf : Tree} {x : Thing} {m n : FileName} {p q ds : List FileName}
  {es : List (FileName × Tree)}

/-! ## Entries -/

theorem lookup_setEntry_self (n : FileName) (t : Tree) (es : List (FileName × Tree)) :
    (setEntry n t es).lookup n = some t := by
  induction es with
  | nil => simp [setEntry]
  | cons e es ih =>
    rw [setEntry]
    split_ifs with h
    · simp
    · rw [List.lookup_cons, beq_false_of_ne (Ne.symm h)]
      exact ih

theorem lookup_setEntry_of_ne (h : m ≠ n) (t : Tree) (es : List (FileName × Tree)) :
    (setEntry n t es).lookup m = es.lookup m := by
  induction es with
  | nil => simp [setEntry, List.lookup_cons, beq_false_of_ne h]
  | cons e es ih =>
    rw [setEntry]
    split_ifs with he
    · rw [List.lookup_cons, List.lookup_cons, he]
      simp [beq_false_of_ne h]
    · rw [List.lookup_cons, List.lookup_cons, ih]

theorem lookup_filter_of_ne (h : m ≠ n) (es : List (FileName × Tree)) :
    (es.filter fun e => e.1 != n).lookup m = es.lookup m := by
  induction es with
  | nil => rfl
  | cons e es ih =>
    by_cases he : e.1 = n
    · rw [List.filter_cons_of_neg (by simp [he]), ih, List.lookup_cons, he, beq_false_of_ne h]
    · rw [List.filter_cons_of_pos (by simp [he]), List.lookup_cons, List.lookup_cons, ih]

/-! ## What is below -/

theorem thing?_cons_directory (n : FileName) (ns : List FileName) (es : List (FileName × Tree)) :
    thing? (n :: ns) (.directory es) = (es.lookup n).bind (thing? ns) := by
  rw [thing?, get?, Option.map_bind]
  rfl

theorem exists_entries (h : top.thing? [] = some .directory) : ∃ es, top = .directory es := by
  cases top with
  | directory es => exact ⟨es, rfl⟩
  | file content => cases h
  | link target => cases h

theorem exists_directory_of_thing? (h : top.thing? (m :: p) = some x) :
    ∃ es t, top = .directory es ∧ es.lookup m = some t ∧ t.thing? p = some x := by
  cases top with
  | directory es =>
    rw [thing?_cons_directory] at h
    obtain ⟨t, ht, hx⟩ := Option.bind_eq_some_iff.1 h
    exact ⟨es, t, rfl, ht, hx⟩
  | file content => cases h
  | link target => cases h

/-- Whatever has something below it is a directory. -/
theorem thing?_of_append (h : top.thing? (p ++ n :: q) = some x) :
    top.thing? p = some .directory := by
  induction p generalizing top with
  | nil =>
    obtain ⟨es, t, rfl, -⟩ := exists_directory_of_thing? h
    rfl
  | cons m p ih =>
    obtain ⟨es, t, rfl, ht, hx⟩ := exists_directory_of_thing? h
    rw [thing?_cons_directory, ht]
    exact ih hx

theorem thing?_nil_of (h : top.thing? ds = some .directory) : top.thing? [] = some .directory := by
  cases ds with
  | nil => exact h
  | cons n ds => exact thing?_of_append (p := []) h

/-- Below something that is no directory there is nothing. -/
theorem eq_of_isPrefix (hp : top.thing? p ≠ some .directory) (h : top.thing? q = some x)
    (hpq : p <+: q) : p = q := by
  obtain ⟨r, rfl⟩ := hpq
  cases r with
  | nil => exact (List.append_nil p).symm
  | cons n r => exact absurd (thing?_of_append h) hp

theorem thing?_eq_none_of_isPrefix (hp : top.thing? p ≠ some .directory) (hpq : p <+: q)
    (hne : p ≠ q) : top.thing? q = none := by
  cases hq : top.thing? q with
  | none => rfl
  | some x => exact absurd (eq_of_isPrefix hp hq hpq) hne

theorem not_concat_isPrefix (h : m ≠ n) (ds : List FileName) : ¬ds ++ [m] <+: ds ++ [n] :=
  fun hpre => h (List.cons_prefix_cons.1 ((List.prefix_append_right_inj ds).1 hpre)).1

theorem concat_ne_concat (h : m ≠ n) : p ++ [m] ≠ q ++ [n] :=
  fun heq => h (List.singleton_inj.1 (List.append_inj_right' heq rfl))

/-! ## Changes -/

theorem get?_set_self (hds : top.thing? ds = some .directory) (n : FileName) (leaf : Tree) :
    (set leaf (ds ++ [n]) top).get? (ds ++ [n]) = some leaf := by
  induction ds generalizing top with
  | nil =>
    obtain ⟨es, rfl⟩ := exists_entries hds
    rw [List.nil_append, set, get?, child?, lookup_setEntry_self, set]
    rfl
  | cons m ds ih =>
    obtain ⟨es, t, rfl, ht, hds'⟩ := exists_directory_of_thing? hds
    rw [List.cons_append, set, get?, child?, lookup_setEntry_self, ht]
    exact ih hds'

theorem thing?_set_self (hds : top.thing? ds = some .directory) (n : FileName) (leaf : Tree) :
    (set leaf (ds ++ [n]) top).thing? (ds ++ [n]) = some leaf.thing := by
  rw [thing?, get?_set_self hds]
  rfl

/-- An entry that is put in a directory changes nothing elsewhere. -/
theorem thing?_set (hds : top.thing? ds = some .directory) (hq : ¬ds ++ [n] <+: q) (leaf : Tree) :
    (set leaf (ds ++ [n]) top).thing? q = top.thing? q := by
  induction ds generalizing top q with
  | nil =>
    obtain ⟨es, rfl⟩ := exists_entries hds
    cases q with
    | nil => rfl
    | cons k q =>
      have hk : k ≠ n := fun hk => hq ⟨q, by rw [hk]; rfl⟩
      rw [List.nil_append, set, thing?_cons_directory, thing?_cons_directory,
        lookup_setEntry_of_ne hk]
  | cons m ds ih =>
    obtain ⟨es, t, rfl, ht, hds'⟩ := exists_directory_of_thing? hds
    cases q with
    | nil => rfl
    | cons k q =>
      rw [List.cons_append, set, thing?_cons_directory, thing?_cons_directory]
      by_cases hk : k = m
      · subst hk
        rw [lookup_setEntry_self, ht]
        exact ih hds' fun h => hq (List.prefix_cons_inj k |>.2 h)
      · rw [lookup_setEntry_of_ne hk]

theorem remove_cons (ht : es.lookup m = some t) (ds : List FileName) (n : FileName) :
    remove (m :: ds ++ [n]) (.directory es) =
      .directory (setEntry m (remove (ds ++ [n]) t) es) := by
  cases ds <;> simp [remove, ht]

/-- An entry that is removed from a directory changes nothing elsewhere. -/
theorem thing?_remove (hds : top.thing? ds = some .directory) (hq : ¬ds ++ [n] <+: q) :
    (remove (ds ++ [n]) top).thing? q = top.thing? q := by
  induction ds generalizing top q with
  | nil =>
    obtain ⟨es, rfl⟩ := exists_entries hds
    cases q with
    | nil => rfl
    | cons k q =>
      have hk : k ≠ n := fun hk => hq ⟨q, by rw [hk]; rfl⟩
      rw [List.nil_append, remove, thing?_cons_directory, thing?_cons_directory,
        lookup_filter_of_ne hk]
  | cons m ds ih =>
    obtain ⟨es, t, rfl, ht, hds'⟩ := exists_directory_of_thing? hds
    rw [remove_cons ht]
    cases q with
    | nil => rfl
    | cons k q =>
      rw [thing?_cons_directory, thing?_cons_directory]
      by_cases hk : k = m
      · subst hk
        rw [lookup_setEntry_self, ht]
        exact ih hds' fun h => hq (List.prefix_cons_inj k |>.2 h)
      · rw [lookup_setEntry_of_ne hk]

theorem lookup_filter_self (n : FileName) (es : List (FileName × Tree)) :
    (es.filter fun e => e.1 != n).lookup n = none := by
  refine List.lookup_eq_none_iff.2 fun e he => ?_
  have hne : e.1 ≠ n := by simpa using (List.mem_filter.1 he).2
  simpa using Ne.symm hne

theorem thing?_remove_self (hds : top.thing? ds = some .directory) (n : FileName) :
    (remove (ds ++ [n]) top).thing? (ds ++ [n]) = none := by
  induction ds generalizing top with
  | nil =>
    obtain ⟨es, rfl⟩ := exists_entries hds
    rw [List.nil_append, remove, thing?_cons_directory, lookup_filter_self]
    rfl
  | cons m ds ih =>
    obtain ⟨es, t, rfl, ht, hds'⟩ := exists_directory_of_thing? hds
    rw [remove_cons ht, List.cons_append, thing?_cons_directory, lookup_setEntry_self]
    exact ih hds'

end PublishDesk.Tree
