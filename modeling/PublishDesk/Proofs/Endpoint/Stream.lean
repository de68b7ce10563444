import PublishDesk.Endpoint.Basic
import PublishDesk.Proofs.EventStream.Delivery

/-!
# From the host to the view that holds the stream

While a view holds the stream, the host posts messages, time passes, and the stream is read
(`Endpoint.Feed`). What is read are whole events and comments, and the messages in them are those
posted, up to the ones that are still queued (`Endpoint.Streams.feedAll`). With the reading of the
stream on the other side, every frame reaches the view as it was posted
(`Endpoint.stream_faithful`).
-/

namespace PublishDesk.Endpoint
open EventStream

/-- What happens while a view holds the stream. -/
inductive Feed where
  | post (message : Message)
  | wait (milliseconds : Nat)
  /-- A comment is put on the stream, at whatever time. -/
  | comment
  /-- What the host has for the stream is read. -/
  | read

/-- The text that is put on the stream, and the endpoint after that. -/
def feed (view : String) (e : Endpoint) : Feed → List Char × Endpoint
  | .post m => ([], e.post m)
  | .wait ms => ([], { e with now := e.now + ms })
  | .comment => (keepAlive, e)
  | .read => (((e.read view).1.map (·.1)).getD [], (e.read view).2)

def feedAll (view : String) (e : Endpoint) : List Feed → List Char × Endpoint
  | [] => ([], e)
  | f :: fs =>
    let r := e.feed view f
    let rs := feedAll view r.2 fs
    (r.1 ++ rs.1, rs.2)

def Feed.posted? : Feed → Option Message
  | .post m => some m
  | _ => none

/-- The frames that are queued for the view. -/
def queue (e : Endpoint) : List String := e.host.desk.host.bus.outbound.getD []

/-- A view holds the stream, and the frames of some messages are queued for it. -/
structure Streams (view : String) (e : Endpoint) (pending : List Message) : Prop where
  opened : ∃ s, e.streams.lookup view = some s ∧ s.ended = false
  up : e.shutDown = false
  queued : e.host.desk.host.bus.outbound = some (pending.map Message.frame)

variable {view : String} {e : Endpoint} {pending : List Message}

theorem Streams.deliver {m : Message} (h : Streams view e (m :: pending)) :
    ∃ e', e.deliver? = (some m.frame, e') ∧ Streams view e' pending := by
  have hreceive : e.host.desk.host.bus.receive =
      (some m.frame,
        { e.host.desk.host.bus with outbound := some (pending.map Message.frame) }) := by
    rw [Bus.receive, h.queued, List.map_cons]
  rw [deliver?, h.up, if_neg Bool.false_ne_true, hreceive]
  exact ⟨_, rfl, h.opened, rfl, rfl⟩

theorem Streams.deliverUpTo (h : Streams view e pending) :
    ∃ e', e.deliverUpTo pending.length = (pending.map Message.frame, e') ∧ Streams view e' [] := by
  induction pending generalizing e with
  | nil => exact ⟨e, rfl, h⟩
  | cons m pending ih =>
    obtain ⟨e₁, hdeliver, h₁⟩ := h.deliver
    obtain ⟨e₂, hrest, h₂⟩ := ih h₁
    refine ⟨e₂, ?_, h₂⟩
    rw [List.length_cons, Endpoint.deliverUpTo, hdeliver]
    simp only [hrest, List.map_cons]

theorem Streams.setStream (h : Streams view e pending) {s : ViewStream} (hs : s.ended = false) :
    Streams view (e.setStream view s) pending where
  opened := ⟨s, by simp [Endpoint.setStream], hs⟩
  up := h.up
  queued := h.queued

theorem flatMap_render (ms : List Message) :
    (ms.map Message.frame).flatMap (fun f => (ofFrame f).render) =
      (ms.map Item.message).flatMap Item.text := by
  rw [List.flatMap_map, List.flatMap_map]
  rfl

theorem messages_map (ms : List Message) :
    (ms.map Item.message).filterMap Item.message? = ms := by
  rw [List.filterMap_map]
  exact List.filterMap_some

theorem Streams.read (h : Streams view e pending) :
    ∃ items : List Item, ((e.read view).1.map (·.1)).getD [] = items.flatMap Item.text ∧
      items.filterMap Item.message? = pending ∧ Streams view (e.read view).2 [] := by
  obtain ⟨s, hlookup, hended⟩ := h.opened
  obtain ⟨e', hdeliver, h'⟩ := h.deliverUpTo
  have hlength : (e.host.desk.host.bus.outbound.getD []).length = pending.length := by
    rw [h.queued, Option.getD_some, List.length_map]
  simp only [Endpoint.read, hlookup, hended, h.up, hlength, hdeliver, Bool.false_eq_true, if_false]
  cases pending with
  | nil =>
    rw [if_pos (by rfl)]
    split
    · exact ⟨[.comment], rfl, rfl, h'.setStream rfl⟩
    · exact ⟨[], rfl, rfl, h'⟩
  | cons m pending =>
    rw [if_neg (by simp)]
    exact ⟨(m :: pending).map .message, flatMap_render _, messages_map _, h'.setStream rfl⟩

theorem Streams.feed (h : Streams view e pending) (f : Feed) :
    ∃ (items : List Item) (pending' : List Message),
      (e.feed view f).1 = items.flatMap Item.text ∧
      pending ++ f.posted?.toList = items.filterMap Item.message? ++ pending' ∧
      Streams view (e.feed view f).2 pending' := by
  cases f with
  | post m =>
    refine ⟨[], pending ++ [m], rfl, rfl, h.opened, h.up, ?_⟩
    change e.host.desk.host.bus.outbound.map (· ++ [m.frame]) = _
    rw [h.queued, Option.map_some, List.map_append, List.map_singleton]
  | wait ms => exact ⟨[], pending, rfl, List.append_nil _, h.opened, h.up, h.queued⟩
  | comment => exact ⟨[.comment], pending, (List.append_nil _).symm, List.append_nil _, h⟩
  | read =>
    obtain ⟨items, htext, hmessages, hread⟩ := h.read
    exact ⟨items, [], htext, by rw [hmessages]; rfl, hread⟩

theorem Streams.feedAll (h : Streams view e pending) (feeds : List Feed) :
    ∃ (items : List Item) (pending' : List Message),
      (e.feedAll view feeds).1 = items.flatMap Item.text ∧
      pending ++ feeds.filterMap Feed.posted? = items.filterMap Item.message? ++ pending' ∧
      Streams view (e.feedAll view feeds).2 pending' := by
  induction feeds generalizing e pending with
  | nil => exact ⟨[], pending, rfl, List.append_nil _, h⟩
  | cons f fs ih =>
    obtain ⟨items, pending₁, htext, hmessages, h₁⟩ := h.feed f
    obtain ⟨items', pending₂, htext', hmessages', h₂⟩ := ih h₁
    refine ⟨items ++ items', pending₂, ?_, ?_, h₂⟩
    · rw [Endpoint.feedAll, htext, htext', List.flatMap_append]
    · rw [List.filterMap_append, List.append_assoc, ← hmessages', ← List.append_assoc, ← hmessages,
        List.append_assoc, List.filterMap_cons]
      cases f.posted? <;> rfl

theorem attach_streams (hfree : e.isHeld = false) (hup : e.shutDown = false)
    (hqueue : e.host.desk.host.bus.outbound.isSome) : Streams view (e.attach view).2 [] := by
  obtain ⟨frames, hframes⟩ := Option.isSome_iff_exists.1 hqueue
  have hdropped : Streams view (e.dropFrames.setStream view { active := e.now }) [] :=
    { opened := ⟨{ active := e.now }, by simp [Endpoint.setStream], rfl⟩
      up := hup
      queued := congrArg (Option.map fun _ => []) hframes }
  rw [attach, hfree]
  exact hdropped

/-- Whatever the host posts while a view holds the stream, wherever comments are put between the
events, and however the bytes are cut into chunks: the view takes the frames of the messages that
have been read off the queue, each once and in order, and they are the messages that were posted. -/
theorem stream_faithful {view : String} {e : Endpoint} (hfree : e.isHeld = false)
    (hup : e.shutDown = false) (hqueue : e.host.desk.host.bus.outbound.isSome)
    (feeds : List Feed) {chunks : List (List UInt8)}
    (hchunks : chunks.flatten =
      Text.Utf8.encode ((e.attach view).2.feedAll view feeds).1) :
    ∃ delivered pending : List Message,
      delivered ++ pending = feeds.filterMap Feed.posted? ∧
      ((e.attach view).2.feedAll view feeds).2.queue = pending.map Message.frame ∧
      ScriptedStream.frames { chunks := chunks } = delivered.map Message.frame ∧
      (∀ m ∈ delivered, Message.decode m.frame = .ok m) ∧
      (∀ b : Bus Bus.Responder, (∀ k, (b.handler k).isSome) →
        (ScriptedStream.listen { chunks := chunks } b).2.map (·.2) = delivered) ∧
      ∀ v : ViewRun, v.decoder = {} → v.cancelled = false → v.streamEnd = none →
        (chunks.foldl (fun v c => v.receive c) v).session =
          v.session.dispatchAll (delivered.map Message.frame) := by
  have hstreams : Streams view (e.attach view).2 [] := attach_streams hfree hup hqueue
  obtain ⟨items, pending, htext, hmessages, hend⟩ := hstreams.feedAll feeds
  rw [htext] at hchunks
  have hidle : Decoder.IsIdle {} := ⟨rfl, rfl⟩
  obtain ⟨-, hevents⟩ := Decoder.pushAll_items hidle rfl hchunks
  have hframes : ScriptedStream.frames { chunks := chunks } =
      (items.filterMap Item.message?).map Message.frame := by
    rw [ScriptedStream.frames, hevents, frames_events]
  refine ⟨items.filterMap Item.message?, pending, hmessages.symm, ?_, hframes,
    fun m _ => m.decode_frame, fun b hb => ScriptedStream.handled_listen hframes hb, ?_⟩
  · rw [queue, hend.queued, Option.getD_some]
  · intro v hdecoder hopen hstream
    rw [ViewRun.foldl_receive hopen hstream, hdecoder, hevents, frames_events]

/-- A stream read byte by byte, with comments around an event whose frame is not all ASCII. -/
theorem stream_faithful_bytes :
    let e : Endpoint :=
      { host := { desk := { target := "updates", repository := {} } }
        environment := ⟨fun _ => false, fun _ => false⟩ }
    let m := Message.pong ⟨true, some "é"⟩
    let r := (e.attach "view").2.feedAll "view" [.comment, .post m, .read, .comment]
    ScriptedStream.frames { chunks := (Text.Utf8.encode r.1).map ([·]) } = [m.frame] := by
  intro e m r
  have hchunks : ((Text.Utf8.encode r.1).map ([·])).flatten = Text.Utf8.encode r.1 := by
    rw [← List.flatMap_def, List.flatMap_singleton']
  obtain ⟨delivered, pending, hposted, hqueue, hframes, -⟩ :=
    @stream_faithful "view" e rfl rfl rfl [.comment, .post m, .read, .comment] _ hchunks
  obtain rfl : pending = [] := List.map_eq_nil_iff.1 (hqueue.symm.trans rfl)
  rw [List.append_nil] at hposted
  rw [hframes, hposted]
  rfl

end PublishDesk.Endpoint
