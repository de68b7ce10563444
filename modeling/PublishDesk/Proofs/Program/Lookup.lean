import Mathlib.Data.List.Nodup

/-!
# Entries with distinct keys

Among entries with distinct keys the entry of a key is the only one that has it. So what is found
under a key does not depend on where it is listed (`lookup_eq_of_perm`).
-/

namespace PublishDesk

variable {κ α : Type} [BEq κ] [LawfulBEq κ] {es fs : List (κ × α)} {k : κ} {a : α}

/-- The entry of a key is the only one that has it. -/
theorem lookup_eq_some_iff (h : (es.map Prod.fst).Nodup) :
    es.lookup k = some a ↔ (k, a) ∈ es := by
  induction es with
  | nil => simp
  | cons e es ih =>
    obtain ⟨k', b⟩ := e
    obtain ⟨hk', hes⟩ := List.nodup_cons.1 h
    rw [List.lookup_cons, List.mem_cons]
    by_cases hk : k = k'
    · subst hk
      have hnot : (k, a) ∉ es := fun hmem => hk' (List.mem_map.2 ⟨_, hmem, rfl⟩)
      simp [hnot, eq_comm]
    · rw [beq_false_of_ne hk]
      simp [hk, ih hes]

theorem lookup_eq_of_perm (h : (es.map Prod.fst).Nodup) (hperm : es.Perm fs) (k : κ) :
    es.lookup k = fs.lookup k := by
  have hfs : (fs.map Prod.fst).Nodup := (hperm.map _).nodup_iff.1 h
  refine Option.ext fun a => ?_
  rw [lookup_eq_some_iff h, lookup_eq_some_iff hfs, hperm.mem_iff]

theorem mem_of_lookup_eq_some (h : es.lookup k = some a) : (k, a) ∈ es := by
  obtain ⟨l, l', rfl, -⟩ := List.lookup_eq_some_iff.1 h
  exact List.mem_append_right l List.mem_cons_self

theorem lookup_eq_none_iff_not_mem : es.lookup k = none ↔ k ∉ es.map Prod.fst := by
  rw [List.lookup_eq_none_iff, List.mem_map]
  constructor
  · rintro h ⟨e, he, rfl⟩
    exact bne_iff_ne.1 (h e he) rfl
  · exact fun h e he => bne_iff_ne.2 fun hk => h ⟨e, he, hk.symm⟩

end PublishDesk
