import PublishDesk.Bus.Program
import PublishDesk.Proofs.Message.Frame

/-!
# What a bus does with a frame

A handler is found by the tag of a frame and is then given the message of the frame. The tag and the
message come from two readers of the same text, so it takes an argument that the handler fits the
message (`eq_tag_of_decode`). `Bus.dispatch_reliable` puts together what a bus promises of every
frame, whatever is written in it.
-/

namespace PublishDesk

/-- How an error stops a frame on a bus. Each one presupposes that those before it do not occur. -/
def BusError.Stops {H : Type} (b : Bus H) (frame : String) : BusError → Prop
  | .malformed f => peekTag frame = .error f
  | .unknownKind t => peekTag frame = .ok t ∧ Kind.ofTag? t = none
  | .unhandled k => peekTag frame = .ok k.tag ∧ b.handler k = none
  | .payload k f =>
    peekTag frame = .ok k.tag ∧ (b.handler k).isSome ∧ Message.decode frame = .error f

/-- Whether a frame has a form in which `peekTag` does not find the tag: an array, or an object with
an object in the place of the tag. -/
def hidesTag (frame : String) : Bool :=
  (Json.Doc.read frame.toList).1.isArray || (Json.Doc.read frame.toList).1.hasObjectKind

section

variable {frame t : String} {m : Message}

theorem peekTag_of_hidesTag (hm : Message.decode frame = .ok m) (h : hidesTag frame) :
    ∃ f, peekTag frame = .error f := by
  have htag := peekTag_of_decode hm
  split at htag
  · exact ⟨_, htag⟩
  · next harray =>
    rw [hidesTag, Bool.or_eq_true] at h
    rw [if_pos (h.resolve_left harray)] at htag
    exact ⟨_, htag⟩

theorem peekTag_of_not_hidesTag (hm : Message.decode frame = .ok m) (h : ¬ hidesTag frame) :
    peekTag frame = .ok m.kind.tag := by
  rw [hidesTag, Bool.or_eq_true, not_or] at h
  rw [peekTag_of_decode hm, if_neg h.1, if_neg h.2]

theorem eq_tag_of_decode (ht : peekTag frame = .ok t) (hm : Message.decode frame = .ok m) :
    t = m.kind.tag := by
  by_cases h : hidesTag frame
  · obtain ⟨f, hf⟩ := peekTag_of_hidesTag hm h
    cases ht.symm.trans hf
  · exact Except.ok.inj (ht.symm.trans (peekTag_of_not_hidesTag hm h))

end

namespace Bus

variable {H : Type} {b : Bus H} {frame : String}

theorem route_of_kind {k : Kind} (h : peekTag frame = .ok k.tag) :
    b.route frame = match b.handler k with
      | none => .error (.unhandled k)
      | some handler =>
        ((Message.decode frame).mapError (.payload k)).map fun m => (k, handler, m) := by
  simp only [route, h, mapError_ok, bind, Except.bind, Kind.ofTag?_tag]
  cases b.handler k with
  | none => rfl
  | some handler => cases Message.decode frame <;> rfl

theorem route_of_stops {e : BusError} (h : e.Stops b frame) : b.route frame = .error e := by
  cases e with
  | malformed f =>
    have htag : peekTag frame = .error f := h
    simp only [route, htag, mapError_error, bind, Except.bind]
  | unknownKind t =>
    simp only [route, h.1, h.2, mapError_ok, bind, Except.bind]
    rfl
  | unhandled k => rw [route_of_kind h.1, h.2]
  | payload k f =>
    obtain ⟨handler, hhandler⟩ := Option.isSome_iff_exists.1 h.2.1
    rw [route_of_kind h.1, hhandler, h.2.2]
    rfl

/-- Either an error stops a frame, or the handler of its message takes it. -/
theorem route_cases (b : Bus H) (frame : String) :
    (∃ e : BusError, e.Stops b frame) ∨
      ∃ m h, Message.decode frame = .ok m ∧ b.handler m.kind = some h ∧
        b.route frame = .ok (m.kind, h, m) := by
  cases htag : peekTag frame with
  | error f => exact .inl ⟨.malformed f, htag⟩
  | ok t =>
    cases hkind : Kind.ofTag? t with
    | none => exact .inl ⟨.unknownKind t, htag, hkind⟩
    | some k =>
      obtain rfl := Kind.ofTag?_eq_some_iff.1 hkind
      cases hhandler : b.handler k with
      | none => exact .inl ⟨.unhandled k, htag, hhandler⟩
      | some h =>
        cases hm : Message.decode frame with
        | error f => exact .inl ⟨.payload k f, htag, Option.isSome_of_eq_some hhandler, hm⟩
        | ok m =>
          obtain rfl : k = m.kind := by
            rw [← Option.some_inj, ← hkind, eq_tag_of_decode htag hm, Kind.ofTag?_tag]
          refine .inr ⟨m, h, rfl, hhandler, ?_⟩
          rw [route_of_kind htag, hhandler, hm]
          rfl

variable {b : Bus Responder}

theorem dispatch_of_stops {e : BusError} (h : e.Stops b frame) :
    b.dispatch frame = ⟨b, .dispatched (.error e), []⟩ := by
  rw [dispatch, route_of_stops h]

theorem dispatch_of_route {m : Message} {h : Responder}
    (hroute : b.route frame = .ok (m.kind, h, m)) :
    b.dispatch frame = ⟨b.postAll h.replies, .dispatched (.ok m.kind), [(h.label, m)]⟩ := by
  rw [dispatch, hroute]
  exact if_pos rfl

/-- A frame that has been written for a message is taken by the handler of the message. -/
theorem route_frame {H : Type} {b : Bus H} {m : Message} {h : H} (hh : b.handler m.kind = some h) :
    b.route m.frame = .ok (m.kind, h, m) := by
  rw [route_of_kind m.peekTag_frame, hh, m.decode_frame]
  rfl

theorem handler_postAll {H : Type} (b : Bus H) (ms : List Message) :
    (b.postAll ms).handler = b.handler := by
  induction ms generalizing b with
  | nil => rfl
  | cons m ms ih => exact ih (b.post m)

theorem outbound_postAll {H : Type} {b : Bus H} {frames : List String}
    (h : b.outbound = some frames) (ms : List Message) :
    (b.postAll ms).outbound = some (frames ++ ms.map (·.frame)) := by
  induction ms generalizing b frames with
  | nil => rw [postAll, List.foldl_nil, h, List.map_nil, List.append_nil]
  | cons m ms ih =>
    have hpost : (b.post m).outbound = some (frames ++ [m.frame]) := by rw [post, h]; rfl
    exact (ih hpost).trans (congrArg some (List.append_assoc ..))

/-- What a bus promises of a frame. -/
structure Reliable (b : Bus Responder) (frame : String) : Prop where
  /-- The tag and the message of a frame never disagree. -/
  agreed : ∀ t m, peekTag frame = .ok t → Message.decode frame = .ok m → t = m.kind.tag
  /-- A handler is only given messages of the kind for which it is registered. -/
  fitting : ∀ p ∈ (b.dispatch frame).handled, ∃ h, b.handler p.2.kind = some h ∧ h.label = p.1
  /-- A message with a handler is handed to it once, unless its frame has a form that hides its
  tag. -/
  delivered : ∀ m h, Message.decode frame = .ok m → b.handler m.kind = some h →
    if hidesTag frame then
      ∃ f, b.dispatch frame = ⟨b, .dispatched (.error (.malformed f)), []⟩
    else
      b.dispatch frame = ⟨b.postAll h.replies, .dispatched (.ok m.kind), [(h.label, m)]⟩
  /-- The error in the answer is the first that stops the frame. -/
  refused : ∀ e, (b.dispatch frame).answer = .dispatched (.error e) → e.Stops b frame
  /-- A frame that is stopped leaves no trace. -/
  idle : ∀ e : BusError, e.Stops b frame → b.dispatch frame = ⟨b, .dispatched (.error e), []⟩

theorem dispatch_reliable (b : Bus Responder) (frame : String) : b.Reliable frame where
  agreed t m := eq_tag_of_decode
  fitting p hp := by
    obtain ⟨e, he⟩ | ⟨m, h, -, hh, hroute⟩ := b.route_cases frame
    · rw [dispatch_of_stops he] at hp
      cases hp
    · rw [dispatch_of_route hroute] at hp
      obtain rfl := List.mem_singleton.1 hp
      exact ⟨h, hh, rfl⟩
  delivered m h hm hh := by
    split
    · next hform =>
      obtain ⟨f, hf⟩ := peekTag_of_hidesTag hm hform
      exact ⟨f, dispatch_of_stops (e := .malformed f) hf⟩
    · next hform =>
      apply dispatch_of_route
      rw [route_of_kind (peekTag_of_not_hidesTag hm hform), hh, hm]
      rfl
  refused e he := by
    obtain ⟨e', he'⟩ | ⟨m, h, -, -, hroute⟩ := b.route_cases frame
    · rw [dispatch_of_stops he'] at he
      cases he
      exact he'
    · rw [dispatch_of_route hroute] at he
      cases he
  idle e := dispatch_of_stops

/-- An array is a message, but no handler gets it. -/
theorem dispatch_reliable_array :
    let frame := String.ofList (Json.Value.array [.text "ping".toList, .null]).render
    let b : Bus Responder := Bus.empty.register .ping ⟨"first", [.ping]⟩
    Message.decode frame = .ok .ping ∧
      ∃ f, b.dispatch frame = ⟨b, .dispatched (.error (.malformed f)), []⟩ := by
  intro frame b
  have hread : Json.Doc.read frame.toList =
      (Json.Value.doc (.array [.text "ping".toList, .null]), []) := by
    rw [String.toList_ofList, Json.Doc.read_render rfl]
  have hdecode : Message.decode frame = .ok .ping := by
    rw [Message.decode, Json.readDoc_of_rest (congrArg Prod.snd hread), hread]
    rfl
  have hhides : hidesTag frame := by
    rw [hidesTag, hread]
    rfl
  have hdispatch := (dispatch_reliable b frame).delivered .ping ⟨"first", [.ping]⟩ hdecode rfl
  rw [if_pos hhides] at hdispatch
  exact ⟨hdecode, hdispatch⟩

end Bus
end PublishDesk
