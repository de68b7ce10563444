import PublishDesk.Message.Frame
import PublishDesk.Proofs.Json.Lenient

/-!
# The kind of a frame

A bus reads a frame twice: `peekTag` looks for the kind and skips all else, `Message.decode` reads
everything. The two walk over the same document, and as long as the second finds nothing wrong, the
first has the same kind in hand (`FrameDraft.envelopeMembers_of_ofMembers`). So they name the same
kind for every frame that both accept, and `peekTag` refuses a message only in a form that it does
not know: an array, or an object in the place of the tag (`peekTag_of_decode`).
-/

namespace PublishDesk
open Json Shape

/-- The record that `peekTag` reads. -/
def envelopeRecord : Record (Option String) String :=
  singleField "struct Envelope" "kind" Doc.readText

/-! ## Payloads -/

theorem accepts_singleField {α : Type} {title name : String} {read : Doc → Except Failure α}
    (h : Accepts read) (source : Source) : Accepts ((singleField title name read).read source) := by
  refine Record.accepts_read (fun f hf s => ?_) source
  obtain rfl := List.mem_singleton.1 hf
  exact h.map some

theorem accepts_statusRecord (source : Source) : Accepts (statusRecord.read source) := by
  refine Record.accepts_read (fun f hf s => ?_) source
  rw [statusRecord, List.mem_cons, List.mem_singleton] at hf
  obtain rfl | rfl := hf
  · exact accepts_readFlag.map fun b => { s with serverActive := some b }
  · exact accepts_readOptionalText.map fun l => { s with reviewLink := some l }

namespace Kind

theorem accepts_readPayload (source : Source) (k : Kind) :
    Accepts fun d => k.readPayload source d := by
  cases k with
  | ping => exact (accepts_readNull _).map fun _ => Message.ping
  | pong => exact (accepts_statusRecord source).map Message.pong
  | requestSave => exact (accepts_singleField accepts_readText source).map Message.requestSave
  | saveResult => exact (accepts_singleField accepts_readFlag source).map Message.saveResult

theorem kind_of_readPayload {source : Source} {k : Kind} {d : Doc} {m : Message}
    (h : k.readPayload source d = .ok m) : m.kind = k := by
  cases k <;> obtain ⟨_, -, rfl⟩ := map_eq_ok.1 h <;> rfl

theorem tag_of_ofTag {t : List Char} {k : Kind} (h : ofTag t = .ok k) :
    String.ofList t = k.tag := by
  unfold ofTag at h
  split at h
  · next hk =>
    cases h
    exact ofTag?_eq_some_iff.1 hk
  · cases h

end Kind

/-! ## Kinds -/

/-- Whether a reading is the given name. -/
def Json.Reading.isName (name : String) (r : Reading (List Char)) : Bool :=
  match r.kept with
  | .ok n => n == name.toList
  | .error _ => false

def Json.Doc.isArray : Doc → Bool
  | .array _ => true
  | _ => false

def Json.Doc.isObject : Doc → Bool
  | .object _ => true
  | _ => false

/-- Whether some member named `kind` is an object. -/
def Json.Members.hasObjectKind : Members → Bool
  | .cons name value rest => (name.isName "kind" && value.isObject) || rest.hasObjectKind
  | _ => false

def Json.Doc.hasObjectKind : Doc → Bool
  | .object members => members.hasObjectKind
  | _ => false

/-- How `peekTag` fails on a kind that is an object. -/
def objectKind : Failure := .shape (.wrongType .table "a string")

theorem Kind.readText_of_read {d : Doc} {k : Kind} (h : Kind.read d = .ok k) :
    d.readText = if d.isObject then .error objectKind else .ok k.tag := by
  unfold Kind.read at h
  split at h
  · obtain ⟨t, ht, hk⟩ := bind_eq_ok.1 h
    rw [Doc.readText, orFault_eq_ok.1 ht, Except.map, Kind.tag_of_ofTag hk]
    rfl
  · rfl
  · rfl
  · cases h
  · cases h

/-! ## Members -/

/-- The part of a draft that the reader of the kind has seen. -/
def FrameDraft.tag? : FrameDraft → Option String
  | .empty | .payload _ => none
  | .kind k => some k.tag
  | .whole m => some m.kind.tag

/-- The members of a frame as the reader of the kind takes them in. -/
def envelopeMembers (tag : Option String) (members : Members) : Except Failure (Option String) :=
  Record.ofMembers envelopeRecord.fields tag members

theorem envelopeMembers_kind {name : Reading (List Char)} (hn : name.kept = .ok "kind".toList)
    (value : Doc) (rest : Members) :
    envelopeMembers none (.cons name value rest) =
      value.readText >>= fun t => envelopeMembers (some t) rest := by
  rw [envelopeMembers, Record.ofMembers, hn]
  change Except.map some value.readText >>= _ = _
  cases value.readText <;> rfl

theorem envelopeMembers_other {name : Reading (List Char)} {n : List Char} (hn : name.kept = .ok n)
    (hne : n ≠ "kind".toList) {value : Doc} (hv : value.skip = .ok ()) (tag : Option String)
    (rest : Members) :
    envelopeMembers tag (.cons name value rest) = envelopeMembers tag rest := by
  have hfind : envelopeRecord.fields.find? (fun f => f.name.toList == n) = none :=
    List.find?_eq_none.2 fun f hf => by
      obtain rfl := List.mem_singleton.1 hf
      simpa using hne.symm
  simp only [envelopeMembers, Record.ofMembers, hn, orFault, mapError_ok, bind, Except.bind,
    hfind, hv]

namespace FrameDraft

theorem of_addKind {s s' : FrameDraft} {value : Doc} (h : s.addKind value = .ok s') :
    s.tag? = none ∧ ∃ k, Kind.read value = .ok k ∧ s'.tag? = some k.tag := by
  cases s with
  | empty =>
    obtain ⟨k, hk, rfl⟩ := map_eq_ok.1 h
    exact ⟨rfl, k, hk, rfl⟩
  | payload p =>
    obtain ⟨k, hk, h⟩ := bind_eq_ok.1 h
    obtain ⟨m, hm, h⟩ := bind_eq_ok.1 h
    obtain rfl := Except.ok.inj h
    exact ⟨rfl, k, hk, by rw [tag?, Kind.kind_of_readPayload hm]⟩
  | kind k => cases h
  | whole m => cases h

theorem of_addPayload {s s' : FrameDraft} {value : Doc} (hvalue : value.Lenient)
    (h : s.addPayload value = .ok s') : s'.tag? = s.tag? ∧ value.skip = .ok () := by
  cases s with
  | empty =>
    obtain ⟨_, hkeep, h⟩ := bind_eq_ok.1 h
    obtain rfl := Except.ok.inj h
    exact ⟨rfl, Doc.skip_of_keep hvalue (orFault_eq_ok.1 hkeep)⟩
  | kind k =>
    obtain ⟨m, hm, rfl⟩ := map_eq_ok.1 h
    exact ⟨by rw [tag?, tag?, Kind.kind_of_readPayload hm],
      Kind.accepts_readPayload .streamed k value m hvalue hm⟩
  | payload p => cases h
  | whole m => cases h

/-- The reader of the kind, on the members of a frame that is read as a message: it has the same
kind before it, so it has the same kind behind it, or it has met an object in its place. -/
theorem envelopeMembers_of_ofMembers {s s' : FrameDraft} {members : Members}
    (hm : members.Lenient) (h : s.ofMembers members = .ok s') :
    envelopeMembers s.tag? members =
      if members.hasObjectKind then .error objectKind else .ok s'.tag? := by
  match members with
  | .closed =>
    obtain rfl := Except.ok.inj h
    rfl
  | .cons name value rest =>
    obtain ⟨hname, hvalue, hrest⟩ := hm
    obtain ⟨n, hn, h⟩ := bind_eq_ok.1 h
    have hn := orFault_eq_ok.1 hn
    have hname : name.isName "kind" = (n == "kind".toList) := by rw [Reading.isName, hn]
    rw [Members.hasObjectKind, hname]
    split at h
    · next hkind =>
      obtain ⟨s₁, hadd, h⟩ := bind_eq_ok.1 h
      obtain ⟨hempty, k, hk, htag⟩ := of_addKind hadd
      -- Both readers take the tag from this member, unless it is an object that holds the tag.
      have ih := envelopeMembers_of_ofMembers hrest h
      rw [hempty, envelopeMembers_kind (hkind ▸ hn), Kind.readText_of_read hk, hkind,
        beq_self_eq_true, Bool.true_and]
      cases value.isObject with
      | true => rfl
      | false => rw [htag] at ih; exact ih
    · next hkind =>
      rw [beq_eq_false_iff_ne.2 hkind, Bool.false_and, Bool.false_or]
      split at h
      · obtain ⟨s₁, hadd, h⟩ := bind_eq_ok.1 h
        obtain ⟨htag, hskip⟩ := of_addPayload hvalue hadd
        rw [envelopeMembers_other hn hkind hskip, ← htag]
        exact envelopeMembers_of_ofMembers hrest h
      · obtain ⟨_, hskip, h⟩ := bind_eq_ok.1 h
        rw [envelopeMembers_other hn hkind (orFault_eq_ok.1 hskip)]
        exact envelopeMembers_of_ofMembers hrest h

end FrameDraft

/-! ## Frames -/

theorem Kind.kind_of_bare {k : Kind} {m : Message} (h : k.bare = .ok m) : m.kind = k := by
  cases k <;> cases h
  rfl

theorem FrameDraft.tag?_of_finish {s : FrameDraft} {m : Message} (h : s.finish = .ok m) :
    s.tag? = some m.kind.tag := by
  cases s with
  | empty => cases h
  | payload p => cases h
  | kind k => rw [tag?, Kind.kind_of_bare h]
  | whole m' => rw [tag?, Except.ok.inj h]

/-- A tag is followed by a payload in an array, where the reader of the kind wants the end. -/
theorem envelope_of_array {tag : Doc} {k : Kind} (h : Kind.readTag tag = .ok k) (payload : Doc)
    (rest : Items) :
    envelopeRecord.read .streamed (.array (.cons tag (.cons payload rest))) =
      .error (.fault .malformed) := by
  unfold Kind.readTag at h
  split at h
  · next r =>
    obtain ⟨t, ht, -⟩ := bind_eq_ok.1 h
    have htext : Doc.readText (.text r) = .ok (String.ofList t) := by
      rw [Doc.readText, orFault_eq_ok.1 ht]
      rfl
    change ((Doc.readText (.text r)).map some >>= _) >>= _ = _
    rw [htext]
    rfl
  · exact absurd h (wrongType_ne_ok _ _ k)

theorem envelope_of_read {d : Doc} (hd : d.Lenient) {m : Message} (h : Message.read d = .ok m) :
    envelopeRecord.read .streamed d =
      if d.isArray then .error (.fault .malformed)
      else if d.hasObjectKind then .error objectKind else .ok m.kind.tag := by
  unfold Message.read at h
  split at h
  · cases h
  · cases h
  · obtain ⟨k, hk, h⟩ := bind_eq_ok.1 h
    split at h
    · cases h
    · cases h
    · exact envelope_of_array hk _ _
  · next members =>
    obtain ⟨s, hs, hfinish⟩ := bind_eq_ok.1 h
    have hmembers := FrameDraft.envelopeMembers_of_ofMembers hd hs
    rw [FrameDraft.tag?_of_finish hfinish] at hmembers
    change envelopeMembers none members >>= _ = _
    rw [show FrameDraft.tag? .empty = none from rfl] at hmembers
    rw [hmembers, Doc.hasObjectKind]
    cases members.hasObjectKind <;> rfl
  · exact absurd h (wrongType_ne_ok _ _ m)

/-- The tag of a frame that is read as a message. -/
theorem peekTag_of_decode {frame : String} {m : Message} (h : Message.decode frame = .ok m) :
    peekTag frame =
      if (Doc.read frame.toList).1.isArray then .error (.fault .malformed)
      else if (Doc.read frame.toList).1.hasObjectKind then .error objectKind
      else .ok m.kind.tag := by
  obtain ⟨hm, hrest⟩ := readDoc_eq_ok.1 h
  rw [← envelope_of_read (Doc.read_lenient frame.toList) hm]
  exact readDoc_of_rest hrest (envelopeRecord.read .streamed)

end PublishDesk
