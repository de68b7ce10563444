import PublishDesk.Json.Record
import PublishDesk.Proofs.Program.Outcome

/-!
# What can be kept can be skipped

A reader that keeps a value looks at it more closely than one that skips it, so the second gets past
everything that the first accepts. `Reading.Lenient` says so of a single token, and every document
of a text is made of such tokens (`Doc.read_lenient`). It follows that a value is skipped without a
fault where it can be kept for later (`Doc.skip_of_keep`) or read as a record
(`Record.accepts_read`).
-/

namespace PublishDesk.Json

theorem orFault_eq_ok {α : Type} {x : Except Fault α} {a : α} : orFault x = .ok a ↔ x = .ok a :=
  mapError_eq_ok

/-! ## Tokens -/

/-- Whether what can be kept can be skipped. -/
def Reading.Lenient {α : Type} (r : Reading α) : Prop := ∀ a, r.kept = .ok a → r.skipped = .ok ()

theorem readText_of_escape {cs rest : List Char} {c : Char} (h : readEscape cs = .ok (c, rest)) :
    readText ('\\' :: cs) = (readText rest).map fun r => (c :: r.1, r.2) := by
  rw [readText]
  split <;> simp_all

theorem skipText_of_escape {cs rest : List Char} (h : skipEscape cs = .ok rest) :
    skipText ('\\' :: cs) = skipText rest := by
  rw [skipText]
  split <;> simp_all

theorem skipEscape_of_hexFour {cs rest : List Char} {n : Nat} (h : hexFour cs = .ok (n, rest)) :
    skipEscape ('u' :: cs) = .ok rest := by
  simp only [skipEscape, h, Except.map]

/-- The second half of a surrogate pair is skipped like an escape of its own. -/
theorem skipText_of_lowSurrogate {high : Nat} {cs rest : List Char} {c : Char}
    (h : lowSurrogate high cs = .ok (c, rest)) : skipText cs = skipText rest := by
  unfold lowSurrogate at h
  split at h
  case h_3 cs =>
    split at h
    · cases h
    · next hhex =>
      split at h
      · obtain ⟨-, rfl⟩ := Prod.mk.inj (Except.ok.inj h)
        exact skipText_of_escape (skipEscape_of_hexFour hhex)
      · cases h
  all_goals cases h

theorem skipText_of_readEscape {cs rest : List Char} {c : Char}
    (h : readEscape cs = .ok (c, rest)) : skipText ('\\' :: cs) = skipText rest := by
  unfold readEscape at h
  split at h
  · cases h
  · split at h
    · cases h
    · next hhex =>
      rw [skipText_of_escape (skipEscape_of_hexFour hhex)]
      split at h
      · cases h
      · split at h
        · exact skipText_of_lowSurrogate h
        · obtain ⟨-, rfl⟩ := Prod.mk.inj (Except.ok.inj h)
          rfl
  · next c' cs hu =>
    split at h <;> cases h
    next hshort =>
      apply skipText_of_escape
      rw [skipEscape, hshort, Option.isSome_some, if_pos rfl]
      exact hu

theorem skipText_of_readText {cs : List Char} {r : List Char × List Char}
    (h : readText cs = .ok r) : skipText cs = .ok r.2 := by
  fun_induction readText cs generalizing r with
  | case1 => cases h
  | case2 cs => cases h; rw [skipText]
  | case3 => cases h
  | case4 cs c rest hescape ih =>
    obtain ⟨r', hr, rfl⟩ := map_eq_ok.1 h
    rw [skipText_of_readEscape hescape, ih hr]
  | case5 => cases h
  | case6 c cs hquote hslash hc ih =>
    obtain ⟨r', hr, rfl⟩ := map_eq_ok.1 h
    rw [skipText, if_neg hc, ih hr]
    · exact hquote
    · exact hslash

def Token.Lenient : Token → Prop
  | .number n => n.Lenient
  | .text t => t.Lenient
  | _ => True

theorem textToken_lenient (cs : List Char) : (textToken cs).1.Lenient := by
  unfold textToken
  split
  · next h => exact fun _ _ => rfl
  · next h =>
    rintro t hkept
    obtain ⟨r, hr, -⟩ := map_eq_ok.1 hkept
    rw [skipText_of_readText hr] at h
    cases h

theorem numberToken_lenient (cs : List Char) : (numberToken cs).1.Lenient := by
  unfold numberToken
  split
  · exact fun _ _ => rfl
  · next left _ => cases left <;> exact nofun

theorem token_lenient (c : Char) (cs : List Char) : (token c cs).1.Lenient := by
  unfold token
  split <;> first
    | exact trivial
    | exact textToken_lenient cs
    | (unfold wordToken; split <;> exact trivial)
    | (split
       · exact numberToken_lenient _
       · exact trivial)

theorem lenient_of_mem_tokens {cs : List Char} {t : Token} (h : t ∈ tokens cs) : t.Lenient := by
  fun_induction tokens cs with
  | case1 => cases h
  | case2 c cs hspace ih => exact ih h
  | case3 c cs hspace ih =>
    obtain rfl | h := List.mem_cons.1 h
    · exact token_lenient c cs
    · exact ih h

/-! ## Documents -/

mutual

/-- Whether what can be kept can be skipped, in all parts of a document. -/
def Doc.Lenient : Doc → Prop
  | .word _ | .broken _ => True
  | .number n => n.Lenient
  | .text t => t.Lenient
  | .array items => items.Lenient
  | .object members => members.Lenient

def Items.Lenient : Items → Prop
  | .closed | .broken _ => True
  | .cons item rest => item.Lenient ∧ rest.Lenient

def Members.Lenient : Members → Prop
  | .closed | .broken _ | .nameless _ => True
  | .cons name value rest => name.Lenient ∧ value.Lenient ∧ rest.Lenient

end

theorem Items.lenient_prepend {ds : List Doc} {rest : Items} (hds : ∀ d ∈ ds, d.Lenient)
    (h : rest.Lenient) : (Items.prepend ds rest).Lenient := by
  induction ds with
  | nil => exact h
  | cons d ds ih =>
    obtain ⟨hd, hds⟩ := List.forall_mem_cons.1 hds
    exact ⟨hd, ih hds⟩

def Member.Lenient (m : Member) : Prop := m.1.Lenient ∧ m.2.Lenient

theorem Members.lenient_prepend {ms : List Member} {rest : Members} (hms : ∀ m ∈ ms, m.Lenient)
    (h : rest.Lenient) : (Members.prepend ms rest).Lenient := by
  induction ms with
  | nil => exact h
  | cons m ms ih =>
    obtain ⟨hm, hms⟩ := List.forall_mem_cons.1 hms
    exact ⟨hm.1, hm.2, ih hms⟩

def Hole.Lenient : Hole → Prop
  | .root => True
  | .item done outer => (∀ d ∈ done, d.Lenient) ∧ outer.Lenient
  | .member done name outer => (∀ m ∈ done, m.Lenient) ∧ name.Lenient ∧ outer.Lenient

def Position.Lenient : Position → Prop
  | .value hole => hole.Lenient
  | .firstItem outer => outer.Lenient
  | .afterItem done outer => (∀ d ∈ done, d.Lenient) ∧ outer.Lenient
  | .memberName _ done outer | .afterMember done outer => (∀ m ∈ done, m.Lenient) ∧ outer.Lenient
  | .nameColon done name outer => (∀ m ∈ done, m.Lenient) ∧ name.Lenient ∧ outer.Lenient
  | .complete d => d.Lenient

/-- The array or object that holds what has been read so far, and something more. -/
theorem lenient_array {done : List Doc} {rest : Items} (hdone : ∀ d ∈ done, d.Lenient)
    (h : rest.Lenient) : (Doc.array (.prepend done.reverse rest)).Lenient :=
  Items.lenient_prepend (fun d hd => hdone d (List.mem_reverse.1 hd)) h

theorem lenient_object {done : List Member} {rest : Members} (hdone : ∀ m ∈ done, m.Lenient)
    (h : rest.Lenient) : (Doc.object (.prepend done.reverse rest)).Lenient :=
  Members.lenient_prepend (fun m hm => hdone m (List.mem_reverse.1 hm)) h

namespace Hole

theorem lenient_fill {hole : Hole} {d : Doc} (h : hole.Lenient) (hd : d.Lenient) :
    (hole.fill d).Lenient := by
  cases hole with
  | root => exact hd
  | item done outer => exact ⟨List.forall_mem_cons.2 ⟨hd, h.1⟩, h.2⟩
  | member done name outer => exact ⟨List.forall_mem_cons.2 ⟨⟨h.2.1, hd⟩, h.1⟩, h.2.2⟩

theorem lenient_plug {hole : Hole} {d : Doc} (h : hole.Lenient) (hd : d.Lenient) :
    (hole.plug d).Lenient := by
  induction hole generalizing d with
  | root => exact hd
  | item done outer ih => exact ih h.2 (lenient_array h.1 ⟨hd, trivial⟩)
  | member done name outer ih => exact ih h.2.2 (lenient_object h.1 ⟨h.2.1, hd, trivial⟩)

end Hole

namespace Position

theorem lenient_cut {p : Position} (h : p.Lenient) (f : Fault) : (p.cut f).Lenient := by
  cases p with
  | value hole => exact Hole.lenient_plug h trivial
  | firstItem outer => exact Hole.lenient_plug h trivial
  | afterItem done outer => exact Hole.lenient_plug h.2 (lenient_array h.1 trivial)
  | memberName first done outer => exact Hole.lenient_plug h.2 (lenient_object h.1 trivial)
  | nameColon done name outer =>
    exact Hole.lenient_plug h.2.2 (lenient_object h.1 ⟨h.2.1, trivial, trivial⟩)
  | afterMember done outer => exact Hole.lenient_plug h.2 (lenient_object h.1 trivial)
  | complete d => exact h

/-- What a step leaves: the next position, or the document that is cut off. -/
def After (P : Position → Prop) (Q : Doc → Prop) : Except Doc Position → Prop
  | .ok p => P p
  | .error d => Q d

theorem lenient_take {hole : Hole} {t : Token} (h : hole.Lenient) (ht : t.Lenient) :
    After Lenient Doc.Lenient (hole.take t) := by
  cases t with
  | word w => exact Hole.lenient_fill h trivial
  | number n => exact Hole.lenient_fill h ht
  | text t => exact Hole.lenient_fill h ht
  | openArray => exact h
  | openObject => exact ⟨nofun, h⟩
  | _ => exact Hole.lenient_plug h trivial

theorem lenient_step {p : Position} {t : Token} (h : p.Lenient) (ht : t.Lenient) :
    After Lenient Doc.Lenient (p.step t) := by
  have hcut := lenient_cut h .malformed
  cases p with
  | value hole => exact lenient_take h ht
  | firstItem outer =>
    have hitem : (Hole.item [] outer).Lenient := ⟨nofun, h⟩
    cases t with
    | closeArray => exact Hole.lenient_fill h trivial
    | _ => exact lenient_take hitem ht
  | afterItem done outer =>
    cases t with
    | comma => exact h
    | closeArray => exact Hole.lenient_fill h.2 (lenient_array h.1 trivial)
    | _ => exact hcut
  | memberName first done outer =>
    have hnameless (d : Doc) :
        (outer.plug (.object (.prepend done.reverse (.nameless d)))).Lenient :=
      Hole.lenient_plug h.2 (lenient_object h.1 trivial)
    cases t with
    | text t => exact ⟨h.1, ht, h.2⟩
    | closeObject =>
      cases first with
      | true => exact Hole.lenient_fill h.2 trivial
      | false => exact hnameless _
    | _ => exact hnameless _
  | nameColon done name outer =>
    cases t with
    | colon => exact h
    | _ => exact hcut
  | afterMember done outer =>
    cases t with
    | comma => exact h
    | closeObject => exact Hole.lenient_fill h.2 (lenient_object h.1 trivial)
    | _ => exact hcut
  | complete d => exact h

theorem lenient_run {p : Position} {ts : List Token} (h : p.Lenient) (hts : ∀ t ∈ ts, t.Lenient) :
    (p.run ts).1.Lenient := by
  fun_induction run p ts with
  | case1 d ts => exact h
  | case2 p hp => exact lenient_cut h .truncated
  | case3 p t ts hp q hq ih =>
    have hstep := lenient_step h (hts t List.mem_cons_self)
    rw [hq] at hstep
    exact ih hstep fun t ht => hts t (List.mem_cons_of_mem _ ht)
  | case4 p t ts hp d hd =>
    have hstep := lenient_step h (hts t List.mem_cons_self)
    rw [hd] at hstep
    exact hstep

end Position

theorem Doc.read_lenient (cs : List Char) : (Doc.read cs).1.Lenient :=
  Position.lenient_run trivial fun _ => lenient_of_mem_tokens

/-! ## Values that are kept -/

mutual

theorem Doc.skip_of_keep {depth : Nat} {d : Doc} (hd : d.Lenient) (h : d.keep depth = .ok ()) :
    d.skip = .ok () := by
  match d, depth with
  | .word w, _ => exact h
  | .number n, _ =>
    obtain ⟨a, ha, -⟩ := map_eq_ok.1 h
    exact hd a ha
  | .text t, _ =>
    obtain ⟨a, ha, -⟩ := map_eq_ok.1 h
    exact hd a ha
  | .array items, depth + 1 => exact Items.skip_of_keep hd h
  | .object members, depth + 1 => exact Members.skip_of_keep hd h

theorem Items.skip_of_keep {depth : Nat} {items : Items} (hitems : items.Lenient)
    (h : items.keep depth = .ok ()) : items.skip = .ok () := by
  match items with
  | .closed => rfl
  | .cons item rest =>
    obtain ⟨_, hitem, hrest⟩ := bind_eq_ok.1 h
    exact bind_eq_ok.2 ⟨_, Doc.skip_of_keep hitems.1 hitem, Items.skip_of_keep hitems.2 hrest⟩

theorem Members.skip_of_keep {depth : Nat} {members : Members} (hmembers : members.Lenient)
    (h : members.keep depth = .ok ()) : members.skip = .ok () := by
  match members with
  | .closed => rfl
  | .cons name value rest =>
    obtain ⟨n, hname, h⟩ := bind_eq_ok.1 h
    obtain ⟨_, hvalue, hrest⟩ := bind_eq_ok.1 h
    exact bind_eq_ok.2 ⟨_, hmembers.1 n hname, bind_eq_ok.2
      ⟨_, Doc.skip_of_keep hmembers.2.1 hvalue, Members.skip_of_keep hmembers.2.2 hrest⟩⟩

end

/-! ## Values of a known shape -/

/-- Whether a reader accepts only what is skipped without a fault. -/
def Accepts {α : Type} (read : Doc → Except Failure α) : Prop :=
  ∀ d a, d.Lenient → read d = .ok a → d.skip = .ok ()

theorem wrongType_ne_ok {α : Type} (expected : String) (d : Doc) (a : α) :
    d.wrongType expected ≠ .ok a := by
  intro h
  obtain ⟨x, -, h⟩ := bind_eq_ok.1 h
  cases h

theorem accepts_readFlag : Accepts Doc.readFlag := by
  intro d b hd h
  unfold Doc.readFlag at h
  split at h
  · rfl
  · rfl
  · exact absurd h (wrongType_ne_ok _ d b)

theorem accepts_readText : Accepts Doc.readText := by
  intro d s hd h
  unfold Doc.readText at h
  split at h
  · obtain ⟨t, ht, -⟩ := map_eq_ok.1 (orFault_eq_ok.1 h)
    exact hd t ht
  · exact absurd h (wrongType_ne_ok _ d s)

theorem accepts_readOptionalText : Accepts Doc.readOptionalText := by
  intro d s hd h
  unfold Doc.readOptionalText at h
  split at h
  · rfl
  · obtain ⟨t, ht, -⟩ := map_eq_ok.1 h
    exact accepts_readText d t hd ht

theorem accepts_readNull (expected : String) : Accepts (Doc.readNull expected) := by
  intro d u hd h
  unfold Doc.readNull at h
  split at h
  · rfl
  · exact absurd h (wrongType_ne_ok _ d u)

theorem Accepts.map {α β : Type} {read : Doc → Except Failure α} (h : Accepts read) (f : α → β) :
    Accepts fun d => (read d).map f := by
  intro d b hd hb
  obtain ⟨a, ha, -⟩ := map_eq_ok.1 hb
  exact h d a hd ha

namespace Record

variable {σ α : Type} {fields : List (RecordField σ)}

theorem skip_of_ofItems {expected : String} {source : Source} {count n : Nat} {s s' : σ}
    {items rest : Items} (hfields : ∀ f ∈ fields, ∀ s, Accepts (f.read · s))
    (hitems : items.Lenient) (h : ofItems expected count s fields items = .ok (s', rest))
    (hrest : rest.atEnd source n = .ok ()) : items.skip = .ok () := by
  induction fields generalizing count s items with
  | nil =>
    obtain ⟨rfl, rfl⟩ := Prod.mk.inj (Except.ok.inj h)
    cases items with
    | closed => rfl
    | broken f => cases hrest
    | cons item items => cases source <;> cases hrest
  | cons f fs ih =>
    obtain ⟨hf, hfs⟩ := List.forall_mem_cons.1 hfields
    cases items with
    | closed => rfl
    | broken f => cases h
    | cons item items =>
      obtain ⟨s₁, hitem, h⟩ := bind_eq_ok.1 h
      exact bind_eq_ok.2 ⟨_, hf s item s₁ hitems.1 hitem, ih hfs hitems.2 h⟩

theorem skip_of_ofMembers {s s' : σ} {members : Members}
    (hfields : ∀ f ∈ fields, ∀ s, Accepts (f.read · s)) (hmembers : members.Lenient)
    (h : ofMembers fields s members = .ok s') : members.skip = .ok () := by
  match members with
  | .closed => rfl
  | .cons name value rest =>
    obtain ⟨hname, hvalue, hrest⟩ := hmembers
    obtain ⟨n, hn, h⟩ := bind_eq_ok.1 h
    have hskip : value.skip = .ok () ∧ ∃ s₁, ofMembers fields s₁ rest = .ok s' := by
      split at h
      · obtain ⟨_, hv, h⟩ := bind_eq_ok.1 h
        exact ⟨orFault_eq_ok.1 hv, s, h⟩
      · next f hf =>
        split at h
        · cases h
        · obtain ⟨s₁, hv, h⟩ := bind_eq_ok.1 h
          exact ⟨hfields f (List.mem_of_find?_eq_some hf) s value s₁ hvalue hv, s₁, h⟩
    obtain ⟨hv, s₁, h⟩ := hskip
    exact bind_eq_ok.2 ⟨_, hname n (orFault_eq_ok.1 hn), bind_eq_ok.2
      ⟨_, hv, skip_of_ofMembers hfields hrest h⟩⟩

theorem accepts_read {r : Record σ α} (hfields : ∀ f ∈ r.fields, ∀ s, Accepts (f.read · s))
    (source : Source) : Accepts (r.read source) := by
  intro d a hd h
  unfold read at h
  split at h
  · next items =>
    obtain ⟨⟨s, rest⟩, hitems, h⟩ := bind_eq_ok.1 h
    obtain ⟨a', -, h⟩ := bind_eq_ok.1 h
    obtain ⟨_, hrest, -⟩ := bind_eq_ok.1 h
    exact skip_of_ofItems hfields hd hitems hrest
  · next members =>
    obtain ⟨s, hmembers, -⟩ := bind_eq_ok.1 h
    exact skip_of_ofMembers hfields hd hmembers
  · exact absurd h (wrongType_ne_ok _ d a)

end Record

/-- A text with nothing behind its value is read as the value is. -/
theorem readDoc_of_rest {α : Type} {cs : List Char} (h : (Doc.read cs).2 = [])
    (f : Doc → Except Failure α) : readDoc f cs = f (Doc.read cs).1 := by
  rw [readDoc]
  cases hf : f (Doc.read cs).1 with
  | error e => simp only [hf, bind, Except.bind]
  | ok a => simp only [hf, h, bind, Except.bind, List.isEmpty_nil, if_true, pure, Except.pure]

theorem readDoc_eq_ok {α : Type} {cs : List Char} {f : Doc → Except Failure α} {a : α} :
    readDoc f cs = .ok a ↔ f (Doc.read cs).1 = .ok a ∧ (Doc.read cs).2 = [] := by
  refine ⟨fun h => ?_, fun ⟨h, hrest⟩ => readDoc_of_rest hrest f ▸ h⟩
  obtain ⟨a', ha, h⟩ := bind_eq_ok.1 h
  split at h
  · next hrest =>
    obtain rfl := Except.ok.inj h
    exact ⟨ha, List.isEmpty_iff.1 hrest⟩
  · cases h

end PublishDesk.Json
