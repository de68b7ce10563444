import PublishDesk.Proofs.Program.Lookup
import PublishDesk.Proofs.Program.Outcome
import PublishDesk.Toml.Record

/-!
# Records are read entry by entry

A record is read from a table whose keys are distinct. Where each part of it is set by the entry of
one name alone, the order of the entries makes no difference: each part is what the table says of
it, or what it was (`readEntries_get`). Entries that no field reads stand in the way only if they
hold a number that cannot be represented, and so cannot be delivered (`exists_readEntries`).
-/

namespace PublishDesk.Toml
open Shape

/-! ## Values that are passed over -/

namespace Value

/-- A reader can deliver the value: it can represent every number in it. -/
inductive Representable : Value → Prop where
  | text (t : List Char) : Representable (.text t)
  | flag (b : Bool) : Representable (.flag b)
  | integer {i : Int} (hlow : -wideLimit ≤ i) (hhigh : i < 2 * wideLimit) :
    Representable (.integer (some i))
  | floating (x : Decimal.Binary64) : Representable (.floating (some x))
  | moment (t : List Char) : Representable (.moment t)
  | array {items : List Value} (hitems : ∀ v ∈ items, v.Representable) :
    Representable (.array items)
  | table {entries : List (Key × Value)} (hvalues : ∀ e ∈ entries, e.2.Representable) :
    Representable (.table entries)

theorem ignoreItems_eq_ok {items : List Value} (h : ∀ v ∈ items, v.ignore = .ok ()) :
    ignoreItems items = .ok () := by
  induction items with
  | nil => rfl
  | cons v items ih =>
    obtain ⟨hv, hitems⟩ := List.forall_mem_cons.1 h
    exact bind_eq_ok.2 ⟨(), hv, ih hitems⟩

theorem ignoreEntries_eq_ok {entries : List (Key × Value)}
    (h : ∀ e ∈ entries, e.2.ignore = .ok ()) : ignoreEntries entries = .ok () := by
  induction entries with
  | nil => rfl
  | cons e entries ih =>
    obtain ⟨he, hentries⟩ := List.forall_mem_cons.1 h
    exact bind_eq_ok.2 ⟨(), he, ih hentries⟩

theorem exists_found_integer {i : Int} (hlow : -wideLimit ≤ i) (hhigh : i < 2 * wideLimit) :
    ∃ x, (Value.integer (some i)).found = .ok x := by
  rw [found]
  split
  · exact ⟨_, rfl⟩
  split
  · exact ⟨_, rfl⟩
  · next h =>
    have hnonneg : 0 ≤ i := by
      unfold wideLimit at *
      omega
    exact ⟨_, if_pos ⟨hnonneg, hhigh⟩⟩

theorem Representable.ignore {v : Value} (h : v.Representable) : v.ignore = .ok () := by
  induction h with
  | text | flag | moment => rw [Value.ignore]
  | integer hlow hhigh =>
    obtain ⟨x, hx⟩ := exists_found_integer hlow hhigh
    rw [Value.ignore, hx]
    rfl
  | floating => rw [Value.ignore]; rfl
  | array _ ih =>
    rw [Value.ignore]
    exact ignoreItems_eq_ok ih
  | table _ ih =>
    rw [Value.ignore]
    exact ignoreEntries_eq_ok ih

end Value

/-! ## Fields -/

section

variable {σ α β : Type}

/-- What entries say under a key: nothing, or a value that means something. -/
def Says (t : List (Key × Value)) (key : String) (Means : α → Value → Prop) : Option α → Prop
  | none => t.lookup key.toList = none
  | some a => ∃ v, t.lookup key.toList = some v ∧ Means a v

theorem Says.map {t : List (Key × Value)} {key : String} {Means : α → Value → Prop}
    {Means' : β → Value → Prop} {g : α → β} {a? : Option α} (h : Says t key Means a?)
    (himp : ∀ a v, (key.toList, v) ∈ t → Means a v → Means' (g a) v) :
    Says t key Means' (a?.map g) := by
  cases a? with
  | none => exact h
  | some a =>
    obtain ⟨v, hv, ha⟩ := h
    exact ⟨v, hv, himp a v (mem_of_lookup_eq_some hv) ha⟩

theorem Says.exists_means {t : List (Key × Value)} {key : String} {Means : α → Value → Prop}
    {a? : Option α} (h : Says t key Means a?) (hkeys : (t.map Prod.fst).Nodup) {v : Value}
    (hv : (key.toList, v) ∈ t) : ∃ a, Means a v := by
  have hlookup := (lookup_eq_some_iff hkeys).2 hv
  cases a? with
  | none => cases hlookup.symm.trans h
  | some a =>
    obtain ⟨w, hw, ha⟩ := h
    obtain rfl := Option.some.inj (hw.symm.trans hlookup)
    exact ⟨a, ha⟩

namespace RecordField

/-- Values that mean something set a part of the record to it. -/
def Sets (f : RecordField σ) (get : σ → α) (Means : α → Value → Prop) : Prop :=
  ∀ a v, Means a v → ∀ s, ∃ s', f.read v s = .ok s' ∧ get s' = a

/-- The field leaves a part of the record as it is. -/
def Keeps (f : RecordField σ) (get : σ → α) : Prop :=
  ∀ v s s', f.read v s = .ok s' → get s' = get s

variable {name : String} {read : Value → Except Mismatch α} {set : α → σ → σ} {get : σ → α}
  {Means : α → Value → Prop}

theorem sets_map (hread : ∀ a v, Means a v → read v = .ok a) (hset : ∀ a s, get (set a s) = a) :
    Sets ⟨name, fun v s => (read v).map fun a => set a s⟩ get Means :=
  fun a _ h s => ⟨set a s, map_eq_ok.2 ⟨a, hread a _ h, rfl⟩, hset a s⟩

theorem keeps_map {get : σ → β} (hset : ∀ a s, get (set a s) = get s) :
    Keeps ⟨name, fun v s => (read v).map fun a => set a s⟩ get := by
  intro v s s' h
  obtain ⟨a, -, rfl⟩ := map_eq_ok.1 h
  exact hset a s

/-- What entries say under the name of a field can be read. -/
theorem Sets.exists_read {f : RecordField σ} (h : f.Sets get Means) {t : List (Key × Value)}
    (hkeys : (t.map Prod.fst).Nodup) {a? : Option α} (hsaid : Says t f.name Means a?) :
    ∀ v, (f.name.toList, v) ∈ t → ∀ s, ∃ s', f.read v s = .ok s' := by
  intro v hv s
  obtain ⟨a, ha⟩ := hsaid.exists_means hkeys hv
  obtain ⟨s', hs', -⟩ := h a v ha s
  exact ⟨s', hs'⟩

end RecordField

variable {fields : List (RecordField σ)} {f : RecordField σ} {get : σ → α}
  {Means : α → Value → Prop} {t : List (Key × Value)} {k : Key} {v : Value} {s s' : σ}

theorem readEntries_of_find? (h : fields.find? (·.name.toList == k) = some f) :
    readEntries fields s ((k, v) :: t) = f.read v s >>= fun s₁ => readEntries fields s₁ t := by
  rw [readEntries, h]

theorem readEntries_of_not_find? (h : fields.find? (·.name.toList == k) = none) :
    readEntries fields s ((k, v) :: t) = v.ignore >>= fun _ => readEntries fields s t := by
  rw [readEntries, h]

theorem name_of_find? (h : fields.find? (·.name.toList == k) = some f) : f.name.toList = k := by
  simpa using List.find?_some h

/-- The first entry is read by the field of its name, or it is passed over. -/
theorem of_readEntries_cons {e : Key × Value} (h : readEntries fields s (e :: t) = .ok s') :
    ∃ s₁, readEntries fields s₁ t = .ok s' ∧
      (s₁ = s ∨ ∃ f ∈ fields, f.name.toList = e.1 ∧ f.read e.2 s = .ok s₁) := by
  cases hf : fields.find? (·.name.toList == e.1) with
  | some f =>
    rw [readEntries_of_find? hf] at h
    obtain ⟨s₁, hs₁, h⟩ := bind_eq_ok.1 h
    exact ⟨s₁, h, .inr ⟨f, List.mem_of_find?_eq_some hf, name_of_find? hf, hs₁⟩⟩
  | none =>
    rw [readEntries_of_not_find? hf] at h
    obtain ⟨-, -, h⟩ := bind_eq_ok.1 h
    exact ⟨s, h, .inl rfl⟩

/-- Entries are read if each of them is. -/
theorem exists_readEntries
    (hfields : ∀ f ∈ fields, ∀ v, (f.name.toList, v) ∈ t → ∀ s, ∃ s', f.read v s = .ok s')
    (hothers : ∀ e ∈ t, (∀ f ∈ fields, f.name.toList ≠ e.1) → e.2.Representable) (s : σ) :
    ∃ s', readEntries fields s t = .ok s' := by
  induction t generalizing s with
  | nil => exact ⟨s, rfl⟩
  | cons e t ih =>
    have ih := ih (fun f hf v hv => hfields f hf v (.tail _ hv))
      fun e' he' => hothers e' (.tail _ he')
    cases hf : fields.find? (·.name.toList == e.1) with
    | some f =>
      obtain ⟨s₁, hs₁⟩ := hfields f (List.mem_of_find?_eq_some hf) e.2
        (name_of_find? hf ▸ .head _) s
      obtain ⟨s', hs'⟩ := ih s₁
      exact ⟨s', (readEntries_of_find? hf).trans (bind_eq_ok.2 ⟨s₁, hs₁, hs'⟩)⟩
    | none =>
      have hnone : ∀ f ∈ fields, f.name.toList ≠ e.1 := by simpa using hf
      obtain ⟨s', hs'⟩ := ih s
      have hignore := (hothers e (.head _) hnone).ignore
      exact ⟨s', (readEntries_of_not_find? hf).trans (bind_eq_ok.2 ⟨(), hignore, hs'⟩)⟩

/-- A part of a record stays as it is if there is no entry of its name. -/
theorem readEntries_keeps (hkeeps : ∀ f ∈ fields, f.name.toList ≠ k → f.Keeps get)
    (hk : k ∉ t.map Prod.fst) (h : readEntries fields s t = .ok s') : get s' = get s := by
  induction t generalizing s with
  | nil =>
    cases h
    rfl
  | cons e t ih =>
    obtain ⟨hek, hk⟩ := not_or.1 (mt List.mem_cons.2 hk)
    obtain ⟨s₁, hrest, rfl | ⟨f, hf, hname, hs₁⟩⟩ := of_readEntries_cons h
    · exact ih hk hrest
    · rw [ih hk hrest, hkeeps f hf (hname ▸ Ne.symm hek) _ _ _ hs₁]

/-- A part of a record is what the entry of its name says. -/
theorem readEntries_sets {a : α} (hf : fields.find? (·.name.toList == k) = some f)
    (hsets : f.Sets get Means) (hkeeps : ∀ g ∈ fields, g.name.toList ≠ k → g.Keeps get)
    (hkeys : (t.map Prod.fst).Nodup) (hv : (k, v) ∈ t) (ha : Means a v)
    (h : readEntries fields s t = .ok s') : get s' = a := by
  induction t generalizing s with
  | nil => cases hv
  | cons e t ih =>
    obtain ⟨he, hkeys⟩ := List.nodup_cons.1 hkeys
    rcases List.mem_cons.1 hv with rfl | hv
    · rw [readEntries_of_find? hf] at h
      obtain ⟨s₁, hs₁, h⟩ := bind_eq_ok.1 h
      obtain ⟨s₂, hs₂, hget⟩ := hsets a v ha s
      obtain rfl := Except.ok.inj (hs₁.symm.trans hs₂)
      rw [readEntries_keeps hkeeps he h, hget]
    · obtain ⟨s₁, hrest, -⟩ := of_readEntries_cons h
      exact ih hkeys hv hrest

/-- A part of a record is what the entries say of it, or what it was. -/
theorem readEntries_get {key : String} {a? : Option α}
    (hf : fields.find? (·.name.toList == key.toList) = some f) (hsets : f.Sets get Means)
    (hkeeps : ∀ g ∈ fields, g.name.toList ≠ key.toList → g.Keeps get)
    (hkeys : (t.map Prod.fst).Nodup) (hsaid : Says t key Means a?)
    (h : readEntries fields s t = .ok s') : get s' = a?.getD (get s) := by
  cases a? with
  | none => exact readEntries_keeps hkeeps (lookup_eq_none_iff_not_mem.1 hsaid) h
  | some a =>
    obtain ⟨v, hv, ha⟩ := hsaid
    exact readEntries_sets hf hsets hkeeps hkeys (mem_of_lookup_eq_some hv) ha h

/-- A reader can deliver the entries that are not of these names. -/
def OthersRepresentable (names : List String) (t : List (Key × Value)) : Prop :=
  ∀ e ∈ t, e.1 ∉ names.map String.toList → e.2.Representable

variable {γ : Type} {g h : RecordField σ} {A : σ → α} {B : σ → β} {C : σ → γ}
  {MeansA : α → Value → Prop} {MeansB : β → Value → Prop} {MeansC : γ → Value → Prop}
  {a? : Option α} {b? : Option β} {c? : Option γ}

/-- A record of three fields, each of which sets a part of its own. -/
theorem exists_readEntries_three (hfields : fields = [f, g, h])
    (hnames : [f.name, g.name, h.name].Nodup)
    (hf : f.Sets A MeansA ∧ f.Keeps B ∧ f.Keeps C) (hg : g.Keeps A ∧ g.Sets B MeansB ∧ g.Keeps C)
    (hh : h.Keeps A ∧ h.Keeps B ∧ h.Sets C MeansC) (hkeys : (t.map Prod.fst).Nodup)
    (ha : Says t f.name MeansA a?) (hb : Says t g.name MeansB b?) (hc : Says t h.name MeansC c?)
    (hothers : OthersRepresentable [f.name, g.name, h.name] t) (s : σ) :
    ∃ s', readEntries fields s t = .ok s' ∧ A s' = a?.getD (A s) ∧ B s' = b?.getD (B s) ∧
      C s' = c?.getD (C s) := by
  subst hfields
  have hne : f.name.toList ≠ g.name.toList ∧ f.name.toList ≠ h.name.toList ∧
      g.name.toList ≠ h.name.toList := by
    simpa [and_assoc, String.toList_inj] using hnames
  have hread : ∀ e ∈ [f, g, h], ∀ v, (e.name.toList, v) ∈ t → ∀ s, ∃ s', e.read v s = .ok s' := by
    simp only [List.forall_mem_cons]
    exact ⟨hf.1.exists_read hkeys ha, hg.2.1.exists_read hkeys hb, hh.2.2.exists_read hkeys hc,
      nofun⟩
  have hpass : ∀ e ∈ t, (∀ i ∈ [f, g, h], i.name.toList ≠ e.1) → e.2.Representable := by
    refine fun e he hnot => hothers e he fun hmem => ?_
    obtain ⟨i, hi, hie⟩ := List.mem_map.1 (show e.1 ∈ [f, g, h].map (·.name.toList) from hmem)
    exact hnot i hi hie
  obtain ⟨s', hs'⟩ := exists_readEntries hread hpass s
  refine ⟨s', hs', readEntries_get ?_ hf.1 ?_ hkeys ha hs',
    readEntries_get ?_ hg.2.1 ?_ hkeys hb hs', readEntries_get ?_ hh.2.2 ?_ hkeys hc hs'⟩
  · simp
  · simp [hg.1, hh.1]
  · simp [hne]
  · simp [hf.2.1, hh.2.1]
  · simp [hne]
  · simp [hf.2.2, hg.2.2]

end

end PublishDesk.Toml
