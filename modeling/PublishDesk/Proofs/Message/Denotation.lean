import PublishDesk.Proofs.Json.Fields
import PublishDesk.Proofs.Json.Written
import PublishDesk.Proofs.Message.Envelope

/-!
# What a frame says

A JSON value says a message, or it says none. `Value.Denotes` is about the value alone: the members
of an object count by their names, in any order, and those with other names do not count. The
reader takes the members one by one and holds a draft of the message, so what a draft still wants of
the members to come is said as well (`FrameDraft.Wants`); the two agree by induction on the members.

An object may name its kind in two ways, an array in one only. `Value.Denotes` leaves open which
values name the kind of an array.
-/

namespace PublishDesk
open Json Shape

/-! ## Messages as values -/

/-- A text that names a kind. -/
def Json.Value.IsTag (v : Value) (k : Kind) : Prop := v = .text k.tag.toList

/-- A tag, or an object with the tag as the name of its one member, null. -/
def Json.Value.NamesKind (v : Value) (k : Kind) : Prop :=
  v.IsTag k ∨ v = .object [(k.tag.toList, .null)]

/-- A review link, which may be missing or null. -/
inductive LinkSays : Option Value → Option String → Prop
  | missing : LinkSays none none
  | null : LinkSays (some .null) none
  | text (t : List Char) : LinkSays (some (.text t)) (some (String.ofList t))

inductive Json.Value.SaysStatus : Value → HostStatus → Prop
  | object {members : List (List Char × Value)} {up : Bool} {link : Option Value}
    {l : Option String} : valuesOf "server_active" members = [.flag up] →
      valuesOf "review_link" members = link.toList → LinkSays link l →
      SaysStatus (.object members) ⟨up, l⟩
  | array {up : Bool} {link : Option Value} {l : Option String} :
    LinkSays link l → SaysStatus (.array (.flag up :: link.toList)) ⟨up, l⟩

/-- A record of one field, which has the value `w`. -/
inductive Json.Value.HasField (name : String) : Value → Value → Prop
  | object {members : List (List Char × Value)} {w : Value} :
    valuesOf name members = [w] → HasField name (.object members) w
  | array {w : Value} : HasField name (.array [w]) w

/-- A payload, or none, makes this message of a kind. -/
inductive PayloadSays : Kind → Option Value → Message → Prop
  | missing : PayloadSays .ping none .ping
  | null : PayloadSays .ping (some .null) .ping
  | pong {p : Value} {s : HostStatus} : p.SaysStatus s → PayloadSays .pong (some p) (.pong s)
  | requestSave {p : Value} {t : List Char} : p.HasField "commit_message" (.text t) →
    PayloadSays .requestSave (some p) (.requestSave (String.ofList t))
  | saveResult {p : Value} {ok : Bool} :
    p.HasField "ok" (.flag ok) → PayloadSays .saveResult (some p) (.saveResult ok)

/-- A value says a message: an object with one kind and at most one payload, or an array of the two,
whose kind is named as in `tags`. -/
inductive Json.Value.Denotes (tags : Value → Kind → Prop) : Value → Message → Prop
  | object {members : List (List Char × Value)} {kind : Value} {payload : Option Value} {k : Kind}
    {m : Message} : valuesOf "kind" members = [kind] → kind.NamesKind k →
      valuesOf "payload" members = payload.toList → PayloadSays k payload m →
      Denotes tags (.object members) m
  | array {kind payload : Value} {k : Kind} {m : Message} :
    tags kind k → PayloadSays k (some payload) m → Denotes tags (.array [kind, payload]) m

/-! ## Values of the fields -/

namespace Json.Value

theorem readOptionalText_doc {v : Value} {l : Option String} :
    v.doc.readOptionalText = .ok l ↔ LinkSays (some v) l := by
  constructor
  · intro h
    unfold Doc.readOptionalText at h
    split at h
    · next hv =>
      obtain rfl := doc_inj (hv.trans (show _ = Value.null.doc from rfl))
      obtain rfl := Except.ok.inj h
      exact .null
    · obtain ⟨s, hs, rfl⟩ := map_eq_ok.1 h
      obtain ⟨t, rfl, rfl⟩ := readText_doc.1 hs
      exact .text t
  · intro h
    cases h <;> rfl

end Json.Value

namespace Kind

theorem ofTag_eq_ok {t : List Char} {k : Kind} : ofTag t = .ok k ↔ t = k.tag.toList := by
  constructor
  · intro h
    rw [← tag_of_ofTag h, String.toList_ofList]
  · rintro rfl
    rw [ofTag, String.ofList_toList, ofTag?_tag]

theorem readTag_doc {v : Value} {k : Kind} : readTag v.doc = .ok k ↔ v.IsTag k := by
  constructor
  · intro h
    obtain _ | (_ | _) | _ | t | _ | _ := v
    case text => exact congrArg Value.text (ofTag_eq_ok.1 h)
    all_goals exact absurd h (wrongType_ne_ok _ _ k)
  · rintro rfl
    exact ofTag_eq_ok.2 rfl

theorem read_doc {v : Value} {k : Kind} : Kind.read v.doc = .ok k ↔ v.NamesKind k := by
  constructor
  · intro h
    obtain _ | (_ | _) | _ | t | _ | (_ | ⟨⟨n, v⟩, ms⟩) := v
    case text => exact .inl (congrArg Value.text (ofTag_eq_ok.1 h))
    case object.cons =>
      obtain ⟨_, ht, htag⟩ := bind_eq_ok.1 h
      obtain ⟨k', hk, hnull⟩ := bind_eq_ok.1 htag
      obtain ⟨_, hv, hrest⟩ := bind_eq_ok.1 hnull
      have hn := (Except.ok.inj (orFault_eq_ok.1 ht)).trans (ofTag_eq_ok.1 hk)
      have hv := Value.readNull_doc.1 hv
      cases ms with
      | nil =>
        obtain rfl := Except.ok.inj hrest
        exact .inr (by rw [hn, hv])
      | cons m ms => cases hrest
    all_goals cases h
  · rintro (rfl | rfl)
    · exact ofTag_eq_ok.2 rfl
    · exact bind_eq_ok.2 ⟨_, rfl, bind_eq_ok.2 ⟨k, ofTag_eq_ok.2 rfl, rfl⟩⟩

theorem bare_eq_ok {k : Kind} {m : Message} : k.bare = .ok m ↔ PayloadSays k none m := by
  constructor
  · intro h
    cases k <;> cases h
    exact .missing
  · rintro ⟨⟩
    rfl

end Kind

/-! ## Records of one field -/

section SingleField

variable {α : Type} {title name : String} {read : Doc → Except Failure α}

theorem ofMembers_singleField {slot slot' : Option α} {ms : List (List Char × Value)} :
    Record.ofMembers (singleField title name read).fields slot (docMembers ms) = .ok slot' ↔
      Fills read (valuesOf name ms) slot slot' := by
  induction ms generalizing slot with
  | nil =>
    constructor
    · intro h
      obtain rfl := Except.ok.inj h
      exact .none
    · rintro ⟨⟩
      rfl
  | cons m ms ih =>
    obtain ⟨n, v⟩ := m
    by_cases hn : n = name.toList
    · subst hn
      rw [valuesOf_cons_self, fills_cons]
      refine (Record.ofMembers_field (List.find?_cons_of_pos (beq_self_eq_true _))).trans ?_
      refine and_congr isSome_eq_false ⟨?_, ?_⟩
      · rintro ⟨_, hread, h⟩
        obtain ⟨a, ha, rfl⟩ := map_eq_ok.1 hread
        exact ⟨a, ha, ih.1 h⟩
      · rintro ⟨a, ha, h⟩
        exact ⟨some a, map_eq_ok.2 ⟨a, ha, rfl⟩, ih.2 h⟩
    · rw [valuesOf_cons_of_ne hn, Record.ofMembers_other, ih]
      intro f hf
      obtain rfl := List.mem_singleton.1 hf
      exact Ne.symm hn

theorem finish_singleField {slot : Option α} {a : α} :
    (singleField title name read).finish slot = .ok a ↔ slot = some a := by
  cases slot with
  | none => exact ⟨nofun, nofun⟩
  | some a' =>
    exact ⟨fun h => congrArg _ (Except.ok.inj h), fun h => congrArg _ (Option.some.inj h)⟩

theorem read_singleField {source : Source} {v : Value} {a : α} :
    (singleField title name read).read source v.doc = .ok a ↔
      ∃ w, v.HasField name w ∧ read w.doc = .ok a := by
  constructor
  · intro h
    obtain ⟨members, rfl⟩ | ⟨items, rfl⟩ := Record.read_cases h
    · obtain ⟨slot, hmembers, hfinish⟩ := Record.read_object.1 h
      obtain rfl := finish_singleField.1 hfinish
      have hfills := ofMembers_singleField.1 hmembers
      generalize hvalues : valuesOf name members = values at hfills
      cases hfills with
      | once hw => exact ⟨_, .object hvalues, hw⟩
    · obtain ⟨slot, hitems, hfinish⟩ := Record.read_array.1 h
      obtain rfl := finish_singleField.1 hfinish
      obtain _ | ⟨hopt, -⟩ | ⟨hw, htakes⟩ := hitems
      · cases hopt
      · cases htakes
        obtain ⟨a', ha, heq⟩ := map_eq_ok.1 hw
        obtain rfl := Option.some.inj heq
        exact ⟨_, .array, ha⟩
  · rintro ⟨w, hw | _, ha⟩
    · refine Record.read_object.2 ⟨some a, ofMembers_singleField.2 ?_, rfl⟩
      rw [hw]
      exact .once ha
    · exact Record.read_array.2 ⟨some a, .item (map_eq_ok.2 ⟨a, ha, rfl⟩) .done,
        finish_singleField.2 rfl⟩

end SingleField

/-! ## Statuses -/

theorem ofMembers_status {s s' : StatusDraft} {ms : List (List Char × Value)} :
    Record.ofMembers statusRecord.fields s (docMembers ms) = .ok s' ↔
      Fills Doc.readFlag (valuesOf "server_active" ms) s.serverActive s'.serverActive ∧
      Fills Doc.readOptionalText (valuesOf "review_link" ms) s.reviewLink s'.reviewLink := by
  induction ms generalizing s with
  | nil =>
    constructor
    · intro h
      obtain rfl := Except.ok.inj h
      exact ⟨.none, .none⟩
    · obtain ⟨up, link⟩ := s
      obtain ⟨up', link'⟩ := s'
      rintro ⟨⟨⟩, ⟨⟩⟩
      rfl
  | cons m ms ih =>
    obtain ⟨n, v⟩ := m
    by_cases hactive : n = "server_active".toList
    · subst hactive
      rw [valuesOf_cons_self, valuesOf_cons_of_ne (by decide), fills_cons, and_assoc]
      refine (Record.ofMembers_field (List.find?_cons_of_pos (beq_self_eq_true _))).trans ?_
      refine and_congr isSome_eq_false ⟨?_, ?_⟩
      · rintro ⟨_, hread, h⟩
        obtain ⟨up, hup, rfl⟩ := map_eq_ok.1 hread
        exact ⟨⟨up, hup, (ih.1 h).1⟩, (ih.1 h).2⟩
      · rintro ⟨⟨up, hup, hfills⟩, h⟩
        exact ⟨_, map_eq_ok.2 ⟨up, hup, rfl⟩, ih.2 ⟨hfills, h⟩⟩
    · by_cases hlink : n = "review_link".toList
      · subst hlink
        rw [valuesOf_cons_self, valuesOf_cons_of_ne (by decide), fills_cons, and_left_comm]
        refine (Record.ofMembers_field ((List.find?_cons_of_neg (by decide)).trans
          (List.find?_cons_of_pos (beq_self_eq_true _)))).trans ?_
        refine and_congr isSome_eq_false ⟨?_, ?_⟩
        · rintro ⟨_, hread, h⟩
          obtain ⟨l, hl, rfl⟩ := map_eq_ok.1 hread
          exact ⟨(ih.1 h).1, l, hl, (ih.1 h).2⟩
        · rintro ⟨h, l, hl, hfills⟩
          exact ⟨_, map_eq_ok.2 ⟨l, hl, rfl⟩, ih.2 ⟨h, hfills⟩⟩
      · rw [valuesOf_cons_of_ne hactive, valuesOf_cons_of_ne hlink, Record.ofMembers_other, ih]
        intro f hf
        rw [statusRecord, List.mem_cons, List.mem_singleton] at hf
        obtain rfl | rfl := hf
        · exact Ne.symm hactive
        · exact Ne.symm hlink

theorem finish_status {s : StatusDraft} {status : HostStatus} :
    statusRecord.finish s = .ok status ↔
      ∃ up, s.serverActive = some up ∧ (⟨up, s.reviewLink.join⟩ : HostStatus) = status := by
  obtain ⟨_ | up, link⟩ := s
  · exact ⟨nofun, nofun⟩
  · constructor
    · intro h
      exact ⟨up, rfl, Except.ok.inj h⟩
    · rintro ⟨_, ⟨⟩, rfl⟩
      rfl

/-- The members that name a review link, as the value that it has. -/
theorem linkSays_of_fills {values : List Value} {slot : Option (Option String)}
    (h : Fills Doc.readOptionalText values none slot) :
    ∃ link : Option Value, values = link.toList ∧ LinkSays link slot.join := by
  cases h with
  | none => exact ⟨none, rfl, .missing⟩
  | @once v l hl => exact ⟨some v, rfl, Value.readOptionalText_doc.1 hl⟩

theorem LinkSays.fills {link : Option Value} {l : Option String} (h : LinkSays link l) :
    ∃ slot, Fills Doc.readOptionalText link.toList none slot ∧ slot.join = l := by
  cases link with
  | none =>
    cases h
    exact ⟨none, .none, rfl⟩
  | some v => exact ⟨some l, .once (Value.readOptionalText_doc.2 h), rfl⟩

theorem read_status_object {source : Source} {members : List (List Char × Value)}
    {status : HostStatus} : statusRecord.read source (Value.object members).doc = .ok status ↔
      (Value.object members).SaysStatus status := by
  constructor
  · intro h
    obtain ⟨s, hmembers, hfinish⟩ := Record.read_object.1 h
    obtain ⟨up, hup, rfl⟩ := finish_status.1 hfinish
    obtain ⟨hactive, hlink⟩ := ofMembers_status.1 hmembers
    obtain ⟨link, hvalues, hlink⟩ := linkSays_of_fills hlink
    rw [hup] at hactive
    generalize hactives : valuesOf "server_active" members = actives at hactive
    cases hactive with
    | once hread =>
      obtain rfl := Value.readFlag_doc.1 hread
      exact .object hactives hvalues hlink
  · rintro (⟨hactive, hvalues, hlink⟩ | _)
    obtain ⟨slot, hfills, rfl⟩ := hlink.fills
    refine Record.read_object.2 ⟨⟨some _, slot⟩, ofMembers_status.2 ⟨?_, ?_⟩, rfl⟩
    · rw [hactive]
      exact .once (Value.readFlag_doc.2 rfl)
    · rw [hvalues]
      exact hfills

theorem read_status_array {source : Source} {items : List Value} {status : HostStatus} :
    statusRecord.read source (Value.array items).doc = .ok status ↔
      (Value.array items).SaysStatus status := by
  constructor
  · intro h
    obtain ⟨s, hitems, hfinish⟩ := Record.read_array.1 h
    obtain ⟨up, hup, rfl⟩ := finish_status.1 hfinish
    obtain _ | ⟨hopt, -⟩ | ⟨hactive, htakes⟩ := hitems
    · cases hopt
    obtain ⟨up', hflag, rfl⟩ := map_eq_ok.1 hactive
    obtain rfl := Value.readFlag_doc.1 hflag
    obtain _ | ⟨-, hdone⟩ | ⟨hlink, hdone⟩ := htakes
    · cases hdone
      obtain rfl := Option.some.inj hup
      exact @Value.SaysStatus.array _ none _ .missing
    · cases hdone
      obtain ⟨l, hl, rfl⟩ := map_eq_ok.1 hlink
      obtain rfl := Option.some.inj hup
      exact @Value.SaysStatus.array _ (some _) _ (Value.readOptionalText_doc.1 hl)
  · intro h
    cases h with
    | @array up link l hlink =>
      have hactive := Value.readFlag_doc.2 (show Value.flag up = .flag up from rfl)
      refine Record.read_array.2 ?_
      cases link with
      | none =>
        cases hlink
        exact ⟨⟨some up, none⟩, .item (map_eq_ok.2 ⟨up, hactive, rfl⟩) (.missing rfl .done), rfl⟩
      | some v =>
        have hlink := Value.readOptionalText_doc.2 hlink
        exact ⟨⟨some up, some l⟩, .item (map_eq_ok.2 ⟨up, hactive, rfl⟩)
          (.item (map_eq_ok.2 ⟨l, hlink, rfl⟩) .done), rfl⟩

theorem read_statusRecord {source : Source} {v : Value} {status : HostStatus} :
    statusRecord.read source v.doc = .ok status ↔ v.SaysStatus status := by
  constructor
  · intro h
    obtain ⟨members, rfl⟩ | ⟨items, rfl⟩ := Record.read_cases h
    · exact read_status_object.1 h
    · exact read_status_array.1 h
  · intro h
    cases h with
    | object hactive hvalues hlink => exact read_status_object.2 (.object hactive hvalues hlink)
    | array hlink => exact read_status_array.2 (.array hlink)

/-! ## Payloads -/

/-- A payload is read alike, whether it was kept before or comes straight from the text. -/
theorem Kind.readPayload_doc {source : Source} {k : Kind} {v : Value} {m : Message} :
    k.readPayload source v.doc = .ok m ↔ PayloadSays k (some v) m := by
  cases k with
  | ping =>
    refine map_eq_ok.trans ⟨?_, ?_⟩
    · rintro ⟨u, h, rfl⟩
      obtain rfl := Value.readNull_doc.1 h
      exact .null
    · rintro ⟨⟩
      exact ⟨(), rfl, rfl⟩
  | pong =>
    refine map_eq_ok.trans ⟨?_, ?_⟩
    · rintro ⟨status, h, rfl⟩
      exact .pong (read_statusRecord.1 h)
    · rintro (_ | _ | h)
      exact ⟨_, read_statusRecord.2 h, rfl⟩
  | requestSave =>
    refine map_eq_ok.trans ⟨?_, ?_⟩
    · rintro ⟨s, h, rfl⟩
      obtain ⟨w, hw, hs⟩ := read_singleField.1 h
      obtain ⟨t, rfl, rfl⟩ := Value.readText_doc.1 hs
      exact .requestSave hw
    · rintro (_ | _ | _ | h)
      exact ⟨_, read_singleField.2 ⟨_, h, rfl⟩, rfl⟩
  | saveResult =>
    refine map_eq_ok.trans ⟨?_, ?_⟩
    · rintro ⟨ok, h, rfl⟩
      obtain ⟨w, hw, hok⟩ := read_singleField.1 h
      obtain rfl := Value.readFlag_doc.1 hok
      exact .saveResult hw
    · rintro (_ | _ | _ | _ | h)
      exact ⟨_, read_singleField.2 ⟨_, h, Value.readFlag_doc.2 rfl⟩, rfl⟩

/-! ## Members

A draft is what has been read of the members so far. The members to come have to bring what it lacks
and nothing that it has.
-/

/-- At most one payload, which makes this message of a kind. -/
def PayloadsSay (k : Kind) (payloads : List Value) (m : Message) : Prop :=
  ∃ payload : Option Value, payloads = payload.toList ∧ PayloadSays k payload m

theorem payloadsSay_nil {k : Kind} {m : Message} :
    PayloadsSay k [] m ↔ PayloadSays k none m := by
  constructor
  · rintro ⟨_ | v, hv, h⟩
    · exact h
    · cases hv
  · exact fun h => ⟨none, rfl, h⟩

theorem payloadsSay_cons {k : Kind} {v : Value} {vs : List Value} {m : Message} :
    PayloadsSay k (v :: vs) m ↔ vs = [] ∧ PayloadSays k (some v) m := by
  constructor
  · rintro ⟨_ | w, hw, h⟩
    · cases hw
    · obtain ⟨rfl, rfl⟩ := List.cons.inj hw
      exact ⟨rfl, h⟩
  · rintro ⟨rfl, h⟩
    exact ⟨some v, rfl, h⟩

namespace FrameDraft

/-- The kinds and payloads to come make this message of a draft. -/
def Wants (kinds payloads : List Value) (m : Message) : FrameDraft → Prop
  | .empty => ∃ kind k, kinds = [kind] ∧ kind.NamesKind k ∧ PayloadsSay k payloads m
  | .kind k => kinds = [] ∧ PayloadsSay k payloads m
  | .payload p => payloads = [] ∧
    ∃ kind k, kinds = [kind] ∧ kind.NamesKind k ∧ k.readPayload .kept p = .ok m
  | .whole m' => kinds = [] ∧ payloads = [] ∧ m' = m

variable {s : FrameDraft} {v : Value} {kinds payloads : List Value} {m : Message}

theorem finish_eq_ok : s.finish = .ok m ↔ s.Wants [] [] m := by
  cases s with
  | empty => exact ⟨nofun, fun ⟨_, _, h, _⟩ => nomatch h⟩
  | payload p => exact ⟨nofun, fun ⟨_, _, _, h, _⟩ => nomatch h⟩
  | kind k => exact (Kind.bare_eq_ok.trans payloadsSay_nil.symm).trans (and_iff_right rfl).symm
  | whole m' => exact ⟨fun h => ⟨rfl, rfl, Except.ok.inj h⟩, fun h => congrArg _ h.2.2⟩

theorem wants_kind : s.Wants (v :: kinds) payloads m ↔
    ∃ s', s.addKind v.doc = .ok s' ∧ s'.Wants kinds payloads m := by
  cases s with
  | empty =>
    constructor
    · rintro ⟨kind, k, heq, hk, hpayloads⟩
      obtain ⟨rfl, rfl⟩ := List.cons.inj heq
      exact ⟨.kind k, map_eq_ok.2 ⟨k, Kind.read_doc.2 hk, rfl⟩, rfl, hpayloads⟩
    · rintro ⟨s', hs, h⟩
      obtain ⟨k, hk, rfl⟩ := map_eq_ok.1 hs
      obtain ⟨rfl, hpayloads⟩ := h
      exact ⟨v, k, rfl, Kind.read_doc.1 hk, hpayloads⟩
  | payload p =>
    constructor
    · rintro ⟨hpayloads, kind, k, heq, hk, hm⟩
      obtain ⟨rfl, rfl⟩ := List.cons.inj heq
      exact ⟨.whole m, bind_eq_ok.2 ⟨k, Kind.read_doc.2 hk, bind_eq_ok.2 ⟨m, hm, rfl⟩⟩,
        rfl, hpayloads, rfl⟩
    · rintro ⟨s', hs, h⟩
      obtain ⟨k, hk, hs⟩ := bind_eq_ok.1 hs
      obtain ⟨m', hm, hs⟩ := bind_eq_ok.1 hs
      obtain rfl := Except.ok.inj hs
      obtain ⟨rfl, hpayloads, rfl⟩ := h
      exact ⟨hpayloads, v, k, rfl, Kind.read_doc.1 hk, hm⟩
  | kind k => exact ⟨fun h => (nomatch h.1), fun ⟨_, h, _⟩ => nomatch h⟩
  | whole m' => exact ⟨fun h => (nomatch h.1), fun ⟨_, h, _⟩ => nomatch h⟩

/-- A payload in front of its kind has to be one that can be kept. -/
theorem wants_payload (hv : v.depth ≤ payloadDepth) : s.Wants kinds (v :: payloads) m ↔
    ∃ s', s.addPayload v.doc = .ok s' ∧ s'.Wants kinds payloads m := by
  cases s with
  | empty =>
    have hadd : addPayload v.doc .empty = .ok (.payload v.doc) :=
      bind_eq_ok.2 ⟨(), orFault_eq_ok.2 (Value.keep_doc hv), rfl⟩
    rw [hadd]
    constructor
    · rintro ⟨kind, k, hkinds, hk, hpayloads⟩
      obtain ⟨rfl, hm⟩ := payloadsSay_cons.1 hpayloads
      exact ⟨_, rfl, rfl, kind, k, hkinds, hk, Kind.readPayload_doc.2 hm⟩
    · rintro ⟨_, ⟨⟩, rfl, kind, k, hkinds, hk, hm⟩
      exact ⟨kind, k, hkinds, hk, payloadsSay_cons.2 ⟨rfl, Kind.readPayload_doc.1 hm⟩⟩
  | kind k =>
    constructor
    · rintro ⟨hkinds, hpayloads⟩
      obtain ⟨rfl, hm⟩ := payloadsSay_cons.1 hpayloads
      exact ⟨.whole m, map_eq_ok.2 ⟨m, Kind.readPayload_doc.2 hm, rfl⟩, hkinds, rfl, rfl⟩
    · rintro ⟨s', hs, h⟩
      obtain ⟨m', hm, rfl⟩ := map_eq_ok.1 hs
      obtain ⟨hkinds, rfl, rfl⟩ := h
      exact ⟨hkinds, payloadsSay_cons.2 ⟨rfl, Kind.readPayload_doc.1 hm⟩⟩
  | payload p => exact ⟨fun h => (nomatch h.1), fun ⟨_, h, _⟩ => nomatch h⟩
  | whole m' => exact ⟨fun h => (nomatch h.2.1), fun ⟨_, h, _⟩ => nomatch h⟩

theorem ofMembers_cons (s : FrameDraft) (n : List Char) (v : Value)
    (ms : List (List Char × Value)) : s.ofMembers (docMembers ((n, v) :: ms)) =
      if n = "kind".toList then s.addKind v.doc >>= fun s => s.ofMembers (docMembers ms)
      else if n = "payload".toList then
        s.addPayload v.doc >>= fun s => s.ofMembers (docMembers ms)
      else s.ofMembers (docMembers ms) := by
  rw [docMembers, ofMembers, v.skip_doc]
  rfl

/-- The members of a frame, read one by one from a draft on. -/
theorem ofMembers_doc {ms : List (List Char × Value)} (hms : membersDepth ms ≤ payloadDepth) :
    (∃ s', s.ofMembers (docMembers ms) = .ok s' ∧ s'.finish = .ok m) ↔
      s.Wants (valuesOf "kind" ms) (valuesOf "payload" ms) m := by
  induction ms generalizing s with
  | nil =>
    refine Iff.trans ⟨?_, fun h => ⟨s, rfl, h⟩⟩ finish_eq_ok
    rintro ⟨s', hs, h⟩
    obtain rfl := Except.ok.inj hs
    exact h
  | cons member ms ih =>
    obtain ⟨n, v⟩ := member
    obtain ⟨hv, hms⟩ := Nat.max_le.1 hms
    have hbind (add : Except Failure FrameDraft) :
        (∃ s', (add >>= fun s₁ => s₁.ofMembers (docMembers ms)) = .ok s' ∧ s'.finish = .ok m) ↔
          ∃ s₁, add = .ok s₁ ∧ s₁.Wants (valuesOf "kind" ms) (valuesOf "payload" ms) m := by
      simp only [bind_eq_ok, ← ih hms]
      constructor
      · rintro ⟨s', ⟨s₁, hadd, hs'⟩, hfinish⟩
        exact ⟨s₁, hadd, s', hs', hfinish⟩
      · rintro ⟨s₁, hadd, s', hs', hfinish⟩
        exact ⟨s', ⟨s₁, hadd, hs'⟩, hfinish⟩
    rw [ofMembers_cons]
    by_cases hkind : n = "kind".toList
    · subst hkind
      rw [valuesOf_cons_self, valuesOf_cons_of_ne (by decide), wants_kind, if_pos rfl]
      exact hbind _
    · rw [if_neg hkind, valuesOf_cons_of_ne hkind]
      by_cases hpayload : n = "payload".toList
      · subst hpayload
        rw [valuesOf_cons_self, wants_payload hv, if_pos rfl]
        exact hbind _
      · rw [if_neg hpayload, valuesOf_cons_of_ne hpayload]
        exact ih hms

end FrameDraft

/-! ## Order -/

/-- The names of the fields in the payload of a kind. -/
def Kind.fields : Kind → List String
  | .ping => []
  | .pong => ["server_active", "review_link"]
  | .requestSave => ["commit_message"]
  | .saveResult => ["ok"]

namespace Json.Rearranged

variable {ms ms' : List (List Char × Value)}

theorem denotes (h : Rearranged ["kind", "payload"] ms ms') {tags : Value → Kind → Prop}
    {m : Message} : (Value.object ms').Denotes tags m ↔ (Value.object ms).Denotes tags m := by
  have hkinds (v : Value) := h.values List.mem_cons_self (some v)
  have hpayloads := h.values (List.mem_cons_of_mem _ List.mem_cons_self)
  constructor
  · intro hm
    cases hm with
    | object hkind hk hpayload hm =>
      exact .object ((hkinds _).1 hkind) hk ((hpayloads _).1 hpayload) hm
  · intro hm
    cases hm with
    | object hkind hk hpayload hm =>
      exact .object ((hkinds _).2 hkind) hk ((hpayloads _).2 hpayload) hm

theorem hasField {name : String} (h : Rearranged [name] ms ms') {w : Value} :
    (Value.object ms').HasField name w ↔ (Value.object ms).HasField name w := by
  have hvalues := h.values List.mem_cons_self (some w)
  constructor
  · rintro ⟨hw⟩
    exact .object (hvalues.1 hw)
  · rintro ⟨hw⟩
    exact .object (hvalues.2 hw)

theorem saysStatus (h : Rearranged ["server_active", "review_link"] ms ms') {status : HostStatus} :
    (Value.object ms').SaysStatus status ↔ (Value.object ms).SaysStatus status := by
  have hactive (v : Value) := h.values List.mem_cons_self (some v)
  have hlinks := h.values (List.mem_cons_of_mem _ List.mem_cons_self)
  constructor
  · intro hstatus
    cases hstatus with
    | object hup hlink hl => exact .object ((hactive _).1 hup) ((hlinks _).1 hlink) hl
  · intro hstatus
    cases hstatus with
    | object hup hlink hl => exact .object ((hactive _).2 hup) ((hlinks _).2 hlink) hl

theorem payloadSays {k : Kind} (h : Rearranged k.fields ms ms') {m : Message} :
    PayloadSays k (some (.object ms')) m ↔ PayloadSays k (some (.object ms)) m := by
  cases k with
  | ping => exact ⟨nofun, nofun⟩
  | pong =>
    constructor
    · rintro (_ | _ | hs)
      exact .pong (h.saysStatus.1 hs)
    · rintro (_ | _ | hs)
      exact .pong (h.saysStatus.2 hs)
  | requestSave =>
    constructor
    · rintro (_ | _ | _ | ht)
      exact .requestSave (h.hasField.1 ht)
    · rintro (_ | _ | _ | ht)
      exact .requestSave (h.hasField.2 ht)
  | saveResult =>
    constructor
    · rintro (_ | _ | _ | _ | hok)
      exact .saveResult (h.hasField.1 hok)
    · rintro (_ | _ | _ | _ | hok)
      exact .saveResult (h.hasField.2 hok)

end Json.Rearranged

/-! ## Frames -/

namespace Message

/-- A payload lies one level deep in its frame. -/
theorem read_doc_iff {v : Value} (hdepth : v.depth ≤ payloadDepth + 1) {m : Message} :
    Message.read v.doc = .ok m ↔ v.Denotes Value.IsTag m := by
  obtain _ | (_ | _) | _ | _ | items | members := v
  case object =>
    have hmembers := Nat.le_of_succ_le_succ hdepth
    rw [Value.doc, Message.read, bind_eq_ok, FrameDraft.ofMembers_doc hmembers]
    constructor
    · rintro ⟨kind, k, hkinds, hk, payload, hpayload, hm⟩
      exact .object hkinds hk hpayload hm
    · intro h
      cases h with
      | object hkinds hk hpayload hm => exact ⟨_, _, hkinds, hk, _, hpayload, hm⟩
  case array =>
    constructor
    · intro h
      obtain _ | ⟨kind, _ | ⟨payload, rest⟩⟩ := items
      · cases h
      · obtain ⟨k, -, h⟩ := bind_eq_ok.1 h
        cases h
      · obtain ⟨k, hk, h⟩ := bind_eq_ok.1 h
        obtain ⟨m', hm, h⟩ := bind_eq_ok.1 h
        obtain ⟨_, hrest, h⟩ := bind_eq_ok.1 h
        obtain rfl := Except.ok.inj h
        cases rest with
        | nil => exact .array (Kind.readTag_doc.1 hk) (Kind.readPayload_doc.1 hm)
        | cons v vs => cases hrest
    · intro h
      cases h with
      | array hk hm =>
        refine bind_eq_ok.2 ⟨_, Kind.readTag_doc.2 hk, bind_eq_ok.2 ⟨m, ?_, rfl⟩⟩
        exact Kind.readPayload_doc.2 hm
  all_goals
    constructor
    · intro h
      exact absurd h (wrongType_ne_ok _ _ m)
    · intro h
      cases h

theorem decode_eq_read {v : Value} {text : String} (hv : v.IsWritten text.toList) :
    decode text = Message.read v.doc := by
  rw [decode, readDoc_of_rest (congrArg Prod.snd hv.read), hv.read]

/-- A frame is read as the message that its value denotes, and as none if its value denotes none.
What a value denotes does not depend on the order of its members or on members with other names, so
a payload is read alike in front of its kind and behind it. -/
theorem decode_iff_denotes {v : Value} {text : String} (hv : v.IsWritten text.toList)
    (hdepth : v.depth ≤ 127) (m : Message) :
    (decode text = .ok m ↔ v.Denotes Value.IsTag m) ∧
    (∀ members members' text', v = .object members →
      Rearranged ["kind", "payload"] members members' →
      (Value.object members').IsWritten text'.toList → (Value.object members').depth ≤ 127 →
      (decode text' = .ok m ↔ decode text = .ok m)) ∧
    ∀ k members members', Rearranged (Kind.fields k) members members' →
      (PayloadSays k (some (.object members')) m ↔ PayloadSays k (some (.object members)) m) := by
  have hiff := (congrArg (· = .ok m) (decode_eq_read hv)).to_iff.trans (read_doc_iff hdepth)
  refine ⟨hiff, ?_, fun k members members' h => h.payloadSays⟩
  rintro members members' text' rfl h hv' hdepth'
  rw [hiff, decode_eq_read hv', read_doc_iff hdepth', h.denotes]

/-- A payload in front of its kind, with white space around them, and the same frame written the
other way round. -/
theorem decode_payload_first :
    decode "\x7b \"payload\" : [true], \"kind\": \"save_result\" \x7d" = .ok (.saveResult true) ∧
    decode "\x7b\"kind\":\"save_result\",\"payload\":[true]\x7d" = .ok (.saveResult true) := by
  have hfirst : (Value.object [("payload".toList, .array [.flag true]),
      ("kind".toList, .text "save_result".toList)]).IsWritten
      "\x7b \"payload\" : [true], \"kind\": \"save_result\" \x7d".toList :=
    .intro .none (.object (.some (.more rfl .none) (textSpells_render _ _) (.more rfl .none)
      (.more rfl .none) (.array (.some .none .yes .none .closed)) .none
      (.comma (.some (.more rfl .none) (textSpells_render _ _) .none (.more rfl .none)
        (.text (textSpells_render _ _)) (.more rfl .none) .closed)))) .none
  have hlast : (Value.object [("kind".toList, .text "save_result".toList),
      ("payload".toList, .array [.flag true])]).IsWritten
      "\x7b\"kind\":\"save_result\",\"payload\":[true]\x7d".toList := Value.isWritten_render rfl
  have hkind : (Value.text "save_result".toList).NamesKind .saveResult := .inl rfl
  obtain ⟨hdecode, hrearranged, -⟩ := decode_iff_denotes hfirst (by decide) (.saveResult true)
  have hok : decode "\x7b \"payload\" : [true], \"kind\": \"save_result\" \x7d" =
      .ok (.saveResult true) :=
    hdecode.2 (@Value.Denotes.object _ _ _ (some _) _ _ rfl hkind rfl (.saveResult .array))
  exact ⟨hok, (hrearranged _ _ _ rfl ⟨[], nofun, .swap _ _ _⟩ hlast (by decide)).2 hok⟩

/-- An object that holds the tag names the kind of an object, but not that of an array. -/
theorem array_kind_not_object :
    ¬ ∀ (v : Value) (text : String) (m : Message), v.IsWritten text.toList → v.depth ≤ 127 →
      (decode text = .ok m ↔ v.Denotes Value.NamesKind m) := by
  intro h
  have hv : (Value.array [.object [("ping".toList, .null)], .null]).IsWritten
      "[\x7b\"ping\":null\x7d,null]".toList := Value.isWritten_render rfl
  have hdepth : (Value.array [.object [("ping".toList, .null)], .null]).depth ≤ 127 := by decide
  have hread := (h _ _ .ping hv hdepth).2 (.array (.inr rfl) .null)
  rw [decode_eq_read hv] at hread
  cases hread

end Message

end PublishDesk
