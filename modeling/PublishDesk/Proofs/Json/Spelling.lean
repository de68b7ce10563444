import PublishDesk.Json.Doc

/-!
# Documents as sequences of tokens

`Doc.spell` writes a document as the tokens that spell it. The machine that reads tokens gives the
document back, and goes on with the tokens behind it (`Doc.run_spell`), unless the document breaks
off somewhere (`Doc.isWhole`).
-/

namespace PublishDesk.Json

mutual

/-- Whether a document does not break off. -/
def Doc.isWhole : Doc → Bool
  | .word _ | .number _ | .text _ => true
  | .array items => items.isWhole
  | .object members => members.isWhole
  | .broken _ => false

def Items.isWhole : Items → Bool
  | .closed => true
  | .broken _ => false
  | .cons item rest => item.isWhole && rest.isWhole

def Members.isWhole : Members → Bool
  | .closed => true
  | .broken _ | .nameless _ => false
  | .cons _ value rest => value.isWhole && rest.isWhole

end

mutual

/-- The tokens of a document. -/
def Doc.spell : Doc → List Token
  | .word w => [.word w]
  | .number n => [.number n]
  | .text t => [.text t]
  | .array (.cons item rest) => .openArray :: item.spell ++ rest.spell
  | .array items => .openArray :: items.spell
  | .object (.cons name value rest) =>
    .openObject :: .text name :: .colon :: value.spell ++ rest.spell
  | .object members => .openObject :: members.spell
  | .broken _ => []

/-- The tokens of the items that follow another one. -/
def Items.spell : Items → List Token
  | .closed => [.closeArray]
  | .broken _ => []
  | .cons item rest => .comma :: item.spell ++ rest.spell

/-- The tokens of the members that follow another one. -/
def Members.spell : Members → List Token
  | .closed => [.closeObject]
  | .broken _ | .nameless _ => []
  | .cons name value rest => .comma :: .text name :: .colon :: value.spell ++ rest.spell

end

theorem Items.prepend_append (ds es : List Doc) (rest : Items) :
    Items.prepend (ds ++ es) rest = Items.prepend ds (Items.prepend es rest) := by
  induction ds with
  | nil => rfl
  | cons d ds ih => exact congrArg (Items.cons d) ih

theorem Members.prepend_append (ms ns : List Member) (rest : Members) :
    Members.prepend (ms ++ ns) rest = Members.prepend ms (Members.prepend ns rest) := by
  induction ms with
  | nil => rfl
  | cons m ms ih => exact congrArg (Members.cons m.1 m.2) ih

namespace Position

/-- Where a value may stand as well as the end of the array, a value is taken in the same way. -/
theorem run_firstItem {d : Doc} (h : d.isWhole) (outer : Hole) (ts : List Token) :
    (firstItem outer).run (d.spell ++ ts) = (value (.item [] outer)).run (d.spell ++ ts) := by
  obtain w | n | t | (_ | _ | _) | (_ | _ | _ | _) | f := d <;> first | rfl | cases h

end Position

mutual

theorem Doc.run_spell {d : Doc} (h : d.isWhole) (hole : Hole) (ts : List Token) :
    (Position.value hole).run (d.spell ++ ts) = (hole.fill d).run ts := by
  match d with
  | .word _ | .number _ | .text _ => rfl
  | .array .closed | .object .closed => rfl
  | .array (.cons item rest) =>
    obtain ⟨hitem, hrest⟩ := Bool.and_eq_true_iff.1 h
    calc (Position.value hole).run (Doc.spell (.array (.cons item rest)) ++ ts)
      _ = (Position.firstItem hole).run (item.spell ++ (rest.spell ++ ts)) := by
        rw [← List.append_assoc]
        rfl
      _ = (Position.afterItem [item] hole).run (rest.spell ++ ts) := by
        rw [Position.run_firstItem hitem, Doc.run_spell hitem, Hole.fill]
      _ = (hole.fill (.array (.cons item rest))).run ts := Items.run_spell hrest [item] hole ts
  | .object (.cons name value rest) =>
    obtain ⟨hvalue, hrest⟩ := Bool.and_eq_true_iff.1 h
    calc (Position.value hole).run (Doc.spell (.object (.cons name value rest)) ++ ts)
      _ = (Position.value (.member [] name hole)).run (value.spell ++ (rest.spell ++ ts)) := by
        rw [← List.append_assoc]
        rfl
      _ = (Position.afterMember [(name, value)] hole).run (rest.spell ++ ts) := by
        rw [Doc.run_spell hvalue, Hole.fill]
      _ = (hole.fill (.object (.cons name value rest))).run ts :=
        Members.run_spell hrest [(name, value)] hole ts

theorem Items.run_spell {items : Items} (h : items.isWhole) (done : List Doc) (outer : Hole)
    (ts : List Token) :
    (Position.afterItem done outer).run (items.spell ++ ts) =
      (outer.fill (.array (.prepend done.reverse items))).run ts := by
  match items with
  | .closed => rfl
  | .cons item rest =>
    obtain ⟨hitem, hrest⟩ := Bool.and_eq_true_iff.1 h
    calc (Position.afterItem done outer).run (Items.spell (.cons item rest) ++ ts)
      _ = (Position.value (.item done outer)).run (item.spell ++ (rest.spell ++ ts)) := by
        rw [← List.append_assoc]
        rfl
      _ = (Position.afterItem (item :: done) outer).run (rest.spell ++ ts) := by
        rw [Doc.run_spell hitem, Hole.fill]
      _ = (outer.fill (.array (.prepend done.reverse (.cons item rest)))).run ts := by
        rw [Items.run_spell hrest, List.reverse_cons, Items.prepend_append]
        rfl

theorem Members.run_spell {members : Members} (h : members.isWhole) (done : List Member)
    (outer : Hole) (ts : List Token) :
    (Position.afterMember done outer).run (members.spell ++ ts) =
      (outer.fill (.object (.prepend done.reverse members))).run ts := by
  match members with
  | .closed => rfl
  | .cons name value rest =>
    obtain ⟨hvalue, hrest⟩ := Bool.and_eq_true_iff.1 h
    calc (Position.afterMember done outer).run (Members.spell (.cons name value rest) ++ ts)
      _ = (Position.value (.member done name outer)).run (value.spell ++ (rest.spell ++ ts)) := by
        rw [← List.append_assoc]
        rfl
      _ = (Position.afterMember ((name, value) :: done) outer).run (rest.spell ++ ts) := by
        rw [Doc.run_spell hvalue, Hole.fill]
      _ = (outer.fill (.object (.prepend done.reverse (.cons name value rest)))).run ts := by
        rw [Members.run_spell hrest, List.reverse_cons, Members.prepend_append]
        rfl

end

end PublishDesk.Json
