import PublishDesk.Proofs.Json.Written
import PublishDesk.Proofs.Message.Envelope

/-!
# Frames are read back

`Message.decode` and `peekTag` take a frame apart in different ways: the first keeps what it reads,
the second looks for the kind and skips all else. Both give back what `Message.frame` has written.
-/

namespace PublishDesk
open Json

theorem Kind.read_tag (k : Kind) : Kind.read (Value.text k.tag.toList).doc = .ok k := by
  cases k <;> rfl

namespace FrameDraft

theorem ofMembers_kind (k : Kind) (rest : Members) :
    ofMembers .empty (.cons ⟨.ok "kind".toList, .ok ()⟩ (Value.text k.tag.toList).doc rest) =
      ofMembers (.kind k) rest := by
  rw [ofMembers, addKind, k.read_tag]
  rfl

theorem ofMembers_payload {k : Kind} {value : Doc} {m : Message}
    (h : k.readPayload .streamed value = .ok m) :
    ofMembers (.kind k) (.cons ⟨.ok "payload".toList, .ok ()⟩ value .closed) = .ok (.whole m) := by
  rw [ofMembers, addPayload, h]
  rfl

end FrameDraft

namespace Message

theorem isPlain_toJson (m : Message) : m.toJson.isPlain := by
  obtain _ | ⟨b, _ | l⟩ | c | b := m <;> rfl

theorem read_frame (m : Message) : Doc.read m.frame.toList = (m.toJson.doc, []) := by
  rw [frame, String.toList_ofList, Doc.read_render m.isPlain_toJson]

/-- No character of a frame is a control. -/
theorem not_lt_of_mem_frame {m : Message} {c : Char} (h : c ∈ m.frame.toList) : ¬ c < ' ' := by
  rw [frame, String.toList_ofList] at h
  exact Value.not_lt_of_mem_render m.isPlain_toJson h

theorem readPayload_payload? {m : Message} {p : Value} (h : m.payload? = some p) :
    m.kind.readPayload .streamed p.doc = .ok m := by
  cases m with
  | ping => cases h
  | pong s =>
    obtain ⟨_ | _, _ | l⟩ := s <;> cases h
    · rfl
    · exact congrArg (fun t => Except.ok (pong ⟨false, some t⟩)) String.ofList_toList
    · rfl
    · exact congrArg (fun t => Except.ok (pong ⟨true, some t⟩)) String.ofList_toList
  | requestSave c =>
    cases h
    exact congrArg (fun t => Except.ok (requestSave t)) String.ofList_toList
  | saveResult b => cases h; cases b <;> rfl

theorem bare_of_payload? {m : Message} (h : m.payload? = none) : m.kind.bare = .ok m := by
  cases m with
  | ping => rfl
  | _ => cases h

theorem read_doc (m : Message) : Message.read m.toJson.doc = .ok m := by
  rw [toJson, Value.doc, docMembers, Message.read, FrameDraft.ofMembers_kind]
  cases h : m.payload? with
  | none =>
    exact bare_of_payload? h
  | some p =>
    have hpayload := FrameDraft.ofMembers_payload (readPayload_payload? h)
    rw [Option.map_some, Option.toList_some, docMembers, docMembers, hpayload]
    rfl

theorem decode_frame (m : Message) : decode m.frame = .ok m := by
  rw [decode, readDoc_of_rest (congrArg Prod.snd m.read_frame), m.read_frame, m.read_doc]

theorem hasObjectKind_doc (m : Message) : m.toJson.doc.hasObjectKind = false := by
  obtain _ | ⟨b, _ | l⟩ | c | b := m <;> rfl

theorem peekTag_frame (m : Message) : peekTag m.frame = .ok m.kind.tag := by
  rw [peekTag_of_decode m.decode_frame, m.read_frame, m.hasObjectKind_doc]
  rfl

/-- A frame is one line of printable text, and both readers get back what was written into it,
whatever text the message carries. -/
theorem frame_round_trip (m : Message) :
    (∀ c ∈ m.frame.toList, ' ' ≤ c) ∧ peekTag m.frame = .ok m.kind.tag ∧ decode m.frame = .ok m ∧
      ∀ up, decode (pong ⟨up, none⟩).frame ≠ decode (pong ⟨up, some ""⟩).frame := by
  refine ⟨fun c hc => Char.not_lt.1 (not_lt_of_mem_frame hc), m.peekTag_frame, m.decode_frame, ?_⟩
  intro up h
  rw [decode_frame, decode_frame] at h
  injection h with h
  injection h with h
  injection h with _ h
  cases h

end Message
end PublishDesk
