import PublishDesk.Json.Record
import PublishDesk.Proofs.Json.Grammar

/-!
# Records as values

A record is an object, whose members count by their names, or an array of its fields in order.
`Fills` and `Record.Takes` say what a reader makes of the two, field by field, so that a record is
known once its fields are. What a reader makes of an object depends neither on the order of the
members nor on those with other names (`Rearranged`).
-/

namespace PublishDesk.Json

/-! ## Members by name -/

/-- The values of the members with a given name. -/
def valuesOf (name : String) (members : List (List Char × Value)) : List Value :=
  (members.filter fun member => member.1 = name.toList).map (·.2)

theorem valuesOf_cons_self {name : String} {v : Value} {ms : List (List Char × Value)} :
    valuesOf name ((name.toList, v) :: ms) = v :: valuesOf name ms := by
  rw [valuesOf, List.filter_cons_of_pos (by simp), List.map_cons, valuesOf]

theorem valuesOf_cons_of_ne {name : String} {n : List Char} (h : n ≠ name.toList) {v : Value}
    {ms : List (List Char × Value)} : valuesOf name ((n, v) :: ms) = valuesOf name ms := by
  rw [valuesOf, List.filter_cons_of_neg (by simpa using h), valuesOf]

/-- The same members in another order, and more members, with names that do not count. -/
def Rearranged (names : List String) (members members' : List (List Char × Value)) : Prop :=
  ∃ others : List (List Char × Value),
    (∀ other ∈ others, ∀ name ∈ names, other.1 ≠ name.toList) ∧
      members'.Perm (members ++ others)

namespace Rearranged

variable {names : List String} {ms ms' : List (List Char × Value)}

theorem perm_values (h : Rearranged names ms ms') {name : String} (hname : name ∈ names) :
    (valuesOf name ms').Perm (valuesOf name ms) := by
  obtain ⟨others, hothers, hperm⟩ := h
  have hnone : others.filter (fun other => other.1 = name.toList) = [] :=
    List.filter_eq_nil_iff.2 fun other hother => by simpa using hothers other hother name hname
  have hvalues := (hperm.filter fun member => member.1 = name.toList).map (·.2)
  rwa [List.filter_append, hnone, List.append_nil] at hvalues

/-- Values that occur once or not at all are not moved. -/
theorem values (h : Rearranged names ms ms') {name : String} (hname : name ∈ names)
    (value : Option Value) :
    valuesOf name ms' = value.toList ↔ valuesOf name ms = value.toList := by
  have hperm := h.perm_values hname
  constructor
  · intro hvalue
    rw [hvalue] at hperm
    cases value with
    | none => exact hperm.symm.eq_nil
    | some v => exact hperm.symm.eq_singleton
  · intro hvalue
    rw [hvalue] at hperm
    cases value with
    | none => exact hperm.eq_nil
    | some v => exact hperm.eq_singleton

end Rearranged

/-! ## Values of the fields -/

namespace Value

theorem readFlag_doc {v : Value} {b : Bool} : v.doc.readFlag = .ok b ↔ v = .flag b := by
  constructor
  · intro h
    obtain _ | (_ | _) | _ | _ | _ | _ := v
    case flag.false | flag.true => exact congrArg flag (Except.ok.inj h)
    all_goals exact absurd h (wrongType_ne_ok _ _ b)
  · rintro rfl
    cases b <;> rfl

theorem readText_doc {v : Value} {s : String} :
    v.doc.readText = .ok s ↔ ∃ t, v = .text t ∧ String.ofList t = s := by
  constructor
  · intro h
    obtain _ | (_ | _) | _ | t | _ | _ := v
    case text => exact ⟨t, rfl, Except.ok.inj h⟩
    all_goals exact absurd h (wrongType_ne_ok _ _ s)
  · rintro ⟨t, rfl, rfl⟩
    rfl

theorem readNull_doc {v : Value} {expected : String} {u : Unit} :
    v.doc.readNull expected = .ok u ↔ v = .null := by
  constructor
  · intro h
    obtain _ | (_ | _) | _ | t | _ | _ := v
    case null => rfl
    all_goals exact absurd h (wrongType_ne_ok _ _ u)
  · rintro rfl
    rfl

end Value

/-! ## Records

The members with the name of a field fill its slot in a draft, and a slot is filled once.
-/

inductive Fills {α : Type} (read : Doc → Except Failure α) :
    List Value → Option α → Option α → Prop
  | none {slot : Option α} : Fills read [] slot slot
  | once {v : Value} {a : α} : read v.doc = .ok a → Fills read [v] none (some a)

theorem fills_cons {α : Type} {read : Doc → Except Failure α} {v : Value} {vs : List Value}
    {slot slot' : Option α} : Fills read (v :: vs) slot slot' ↔
      slot = none ∧ ∃ a, read v.doc = .ok a ∧ Fills read vs (some a) slot' := by
  constructor
  · rintro (_ | h)
    exact ⟨rfl, _, h, .none⟩
  · rintro ⟨rfl, a, ha, h⟩
    cases h
    exact .once ha

theorem isSome_eq_false {α : Type} {slot : Option α} : slot.isSome = false ↔ slot = none :=
  Option.isSome_eq_false_iff.trans Option.isNone_iff_eq_none

namespace Record

variable {σ α : Type}

/-- The items of an array fill in the fields in order; only optional ones may be missing. -/
inductive Takes : List (RecordField σ) → List Value → σ → σ → Prop
  | done {s : σ} : Takes [] [] s s
  | missing {f : RecordField σ} {fs : List (RecordField σ)} {s s' : σ} :
    f.optional → Takes fs [] s s' → Takes (f :: fs) [] s s'
  | item {f : RecordField σ} {fs : List (RecordField σ)} {v : Value} {vs : List Value}
    {s s₁ s' : σ} : f.read v.doc s = .ok s₁ → Takes fs vs s₁ s' → Takes (f :: fs) (v :: vs) s s'

theorem ofItems_eq_ok {expected : String} {count : Nat} {fields : List (RecordField σ)}
    {items : List Value} {s s' : σ} :
    ofItems expected count s fields (docItems items) = .ok (s', .closed) ↔
      Takes fields items s s' := by
  induction fields generalizing items s count with
  | nil =>
    cases items with
    | nil =>
      constructor
      · intro h
        obtain ⟨rfl, -⟩ := Prod.mk.inj (Except.ok.inj h)
        exact .done
      · rintro ⟨⟩
        rfl
    | cons v vs => exact ⟨nofun, nofun⟩
  | cons f fs ih =>
    cases items with
    | nil =>
      rw [docItems, ofItems]
      split
      · next hf =>
        refine Iff.trans (@ih _ [] s) ⟨Takes.missing hf, ?_⟩
        rintro (_ | ⟨-, h⟩)
        exact h
      · next hf =>
        refine ⟨nofun, ?_⟩
        rintro (_ | ⟨h, -⟩)
        exact absurd h hf
    | cons v vs =>
      rw [docItems, ofItems, bind_eq_ok]
      constructor
      · rintro ⟨s₁, hs, h⟩
        exact .item hs (ih.1 h)
      · rintro (_ | _ | ⟨hs, h⟩)
        exact ⟨_, hs, ih.2 h⟩

theorem atEnd_eq_ok {source : Source} {count : Nat} {items : Items} {u : Unit} :
    items.atEnd source count = .ok u ↔ items = .closed := by
  cases items with
  | closed => exact ⟨fun _ => rfl, fun _ => rfl⟩
  | broken f => exact ⟨nofun, nofun⟩
  | cons item rest => cases source <;> exact ⟨nofun, nofun⟩

theorem read_object {r : Record σ α} {source : Source} {members : List (List Char × Value)}
    {a : α} : r.read source (Value.object members).doc = .ok a ↔
      ∃ s, ofMembers r.fields r.blank (docMembers members) = .ok s ∧ r.finish s = .ok a := by
  rw [Value.doc, Record.read, bind_eq_ok]
  exact exists_congr fun s => and_congr_right fun _ => mapError_eq_ok

theorem read_array {r : Record σ α} {source : Source} {items : List Value} {a : α} :
    r.read source (Value.array items).doc = .ok a ↔
      ∃ s, Takes r.fields items r.blank s ∧ r.finish s = .ok a := by
  rw [Value.doc, Record.read, bind_eq_ok]
  constructor
  · rintro ⟨⟨s, rest⟩, hitems, h⟩
    obtain ⟨a', ha, h⟩ := bind_eq_ok.1 h
    obtain ⟨_, hrest, h⟩ := bind_eq_ok.1 h
    obtain rfl := Except.ok.inj h
    obtain rfl := atEnd_eq_ok.1 hrest
    exact ⟨s, ofItems_eq_ok.1 hitems, mapError_eq_ok.1 ha⟩
  · rintro ⟨s, hitems, ha⟩
    refine ⟨(s, .closed), ofItems_eq_ok.2 hitems, bind_eq_ok.2 ⟨a, mapError_eq_ok.2 ha, ?_⟩⟩
    exact bind_eq_ok.2 ⟨(), rfl, rfl⟩

/-- A record is an object or an array. -/
theorem read_cases {r : Record σ α} {source : Source} {v : Value} {a : α}
    (h : r.read source v.doc = .ok a) :
    (∃ members, v = .object members) ∨ ∃ items, v = .array items := by
  obtain _ | (_ | _) | _ | _ | items | members := v
  case object => exact .inl ⟨members, rfl⟩
  case array => exact .inr ⟨items, rfl⟩
  all_goals exact absurd h (wrongType_ne_ok _ _ a)

theorem ofMembers_other {fields : List (RecordField σ)} {s : σ} {n : List Char} {v : Value}
    {ms : List (List Char × Value)} (h : ∀ f ∈ fields, f.name.toList ≠ n) :
    ofMembers fields s (docMembers ((n, v) :: ms)) = ofMembers fields s (docMembers ms) := by
  have hfind : fields.find? (fun f => f.name.toList == n) = none :=
    List.find?_eq_none.2 fun f hf => by simpa using h f hf
  rw [docMembers, ofMembers]
  simp only [orFault, mapError_ok, bind, Except.bind, hfind, v.skip_doc]

theorem ofMembers_field {fields : List (RecordField σ)} {s s' : σ} {n : List Char} {v : Value}
    {ms : List (List Char × Value)} {f : RecordField σ}
    (h : fields.find? (fun g => g.name.toList == n) = some f) :
    ofMembers fields s (docMembers ((n, v) :: ms)) = .ok s' ↔
      f.filled s = false ∧
        ∃ s₁, f.read v.doc s = .ok s₁ ∧ ofMembers fields s₁ (docMembers ms) = .ok s' := by
  rw [docMembers, ofMembers]
  simp only [orFault, mapError_ok, bind_eq_ok, Except.ok.injEq, exists_eq_left', h]
  cases f.filled s with
  | true => exact ⟨nofun, fun h => nomatch h.1⟩
  | false => exact (bind_eq_ok).trans ⟨fun h => ⟨rfl, h⟩, And.right⟩

end Record

end PublishDesk.Json
