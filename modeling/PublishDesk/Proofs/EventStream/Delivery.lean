import PublishDesk.Client.ScriptedHost
import PublishDesk.Client.ViewRun
import PublishDesk.EventStream.Encoder
import PublishDesk.Proofs.Bus.Dispatch
import PublishDesk.Proofs.EventStream.Chunks
import PublishDesk.Proofs.Text.Utf8

/-!
# The frames of an event stream

A host writes messages and comments on a stream (`Item`). Each of them is a few whole lines, because
a frame holds no line end, and leaves the decoder as it was before. So the reader of the stream
finds the events of the messages, in order, however the bytes arrive (`Decoder.pushAll_items`).
-/

namespace PublishDesk.EventStream
open Text

/-- What a host writes on a stream. -/
inductive Item where
  | comment
  | message (message : Message)

namespace Item

def text : Item → List Char
  | .comment => keepAlive
  | .message m => (ofFrame m.frame).render

def message? : Item → Option Message
  | .comment => none
  | .message m => some m

/-- The lines of an item, the empty line at its end among them. -/
def lines : Item → List (List Char)
  | .comment => [": keep-alive".toList, []]
  | .message m => ["event: message".toList, "data: ".toList ++ m.frame.toList, []]

/-- The event of an item. -/
def event? (i : Item) : Option Event := i.message?.map fun m => ofFrame m.frame

/-- No line of an item holds a control character. -/
theorem not_mem_lines {c : Char} (hc : c < ' ') (i : Item) : ∀ l ∈ i.lines, c ∉ l := by
  have hplain {l : List Char} (h : ∀ d ∈ l, ¬ d < ' ') : c ∉ l := fun hmem => h c hmem hc
  cases i with
  | comment => exact List.forall_mem_cons.2 ⟨hplain (by simp), by simp⟩
  | message m =>
    have hdata : ∀ d ∈ "data: ".toList ++ m.frame.toList, ¬ d < ' ' :=
      List.forall_mem_append.2 ⟨by simp, fun d hd => Message.not_lt_of_mem_frame hd⟩
    exact List.forall_mem_cons.2
      ⟨hplain (by simp), List.forall_mem_cons.2 ⟨hplain hdata, by simp⟩⟩

theorem text_eq (i : Item) : i.text = terminated '\n' i.lines := by
  cases i with
  | comment => rfl
  | message m =>
    have hsplit : splitOn '\n' m.frame.toList = [m.frame.toList] :=
      splitOn_of_not_mem fun h => Message.not_lt_of_mem_frame h (by decide)
    rw [text, ofFrame, Event.render, hsplit, List.flatMap_singleton, lines, terminated_cons,
      terminated_cons, terminated_cons, fieldLine, fieldLine]
    simp only [List.append_assoc]
    rfl

end Item

theorem text_flatMap (items : List Item) :
    items.flatMap Item.text = terminated '\n' (items.flatMap Item.lines) := by
  induction items with
  | nil => rfl
  | cons i items ih => rw [List.flatMap_cons, List.flatMap_cons, terminated_append, i.text_eq, ih]

/-- A line that holds no control character is taken as it is. -/
theorem lineText_encode {l : List Char} (h : '\r' ∉ l) : lineText (Utf8.encode l) = l := by
  have hlast : l.reverse.dropWhile (· == '\r') = l.reverse := by
    cases hl : l.reverse with
    | nil => rfl
    | cons c cs =>
      apply List.dropWhile_cons_of_neg
      rw [beq_iff_eq]
      rintro rfl
      exact h (List.mem_reverse.1 (hl ▸ List.mem_cons_self))
  rw [lineText, Utf8.decodeLossy_encode, hlast, List.reverse_reverse]

namespace Decoder

/-- Whether no block has been begun. -/
def IsIdle (d : Decoder) : Prop := d.name = none ∧ d.data = []

theorem line_comment (d : Decoder) : d.line ": keep-alive".toList = (d, none) := rfl

theorem line_event (d : Decoder) :
    d.line "event: message".toList = ({ d with name := some defaultName }, none) := rfl

theorem line_data (d : Decoder) (cs : List Char) :
    d.line ("data: ".toList ++ cs) = ({ d with data := d.data ++ [cs] }, none) := by
  have hfield : field ("data: ".toList ++ cs) = ("data".toList, cs) := rfl
  have hname : "data".toList ≠ "event".toList := by decide
  simp only [line, hfield, if_neg hname]
  rfl

/-- An item leaves the decoder as it was, and its event is all that comes of it. -/
theorem lines_item {d : Decoder} (h : d.IsIdle) (i : Item) :
    d.lines (i.lines.map Utf8.encode) = (d, i.event?.toList) := by
  have hline {l : List Char} (hl : l ∈ i.lines) : lineText (Utf8.encode l) = l :=
    lineText_encode (i.not_mem_lines (by decide) l hl)
  obtain ⟨buffer, name, data⟩ := d
  obtain ⟨rfl, rfl⟩ := h
  cases i with
  | comment =>
    have h1 := hline (l := ": keep-alive".toList) List.mem_cons_self
    have h2 := hline (l := []) (List.mem_cons_of_mem _ List.mem_cons_self)
    simp only [Item.lines, List.map_cons, List.map_nil, lines, h1, h2, line_comment]
    rfl
  | message m =>
    have h1 := hline (l := "event: message".toList) List.mem_cons_self
    have h2 := hline (l := "data: ".toList ++ m.frame.toList)
      (List.mem_cons_of_mem _ List.mem_cons_self)
    have h3 := hline (l := [])
      (List.mem_cons_of_mem _ (List.mem_cons_of_mem _ List.mem_cons_self))
    simp only [Item.lines, List.map_cons, List.map_nil, lines, h1, h2, h3, line_event, line_data]
    rfl

theorem lines_items {d : Decoder} (h : d.IsIdle) (items : List Item) :
    d.lines ((items.flatMap Item.lines).map Utf8.encode) = (d, items.filterMap Item.event?) := by
  induction items with
  | nil => rfl
  | cons i items ih =>
    rw [List.flatMap_cons, List.map_append, lines_append, lines_item h, ih]
    cases hi : i.event? <;> simp [hi]

/-- Whole items, cut into chunks anywhere, give their events. -/
theorem pushAll_items {d : Decoder} (h : d.IsIdle) (hbuffer : d.buffer = []) {items : List Item}
    {chunks : List (List UInt8)}
    (hchunks : chunks.flatten = Utf8.encode (items.flatMap Item.text)) :
    (d.pushAll chunks).1 = d ∧ (d.pushAll chunks).2.flatten = items.filterMap Item.event? := by
  have hbyte : Utf8.encodeChar '\n' = [0x0a] := rfl
  have hlines : ∀ l ∈ (items.flatMap Item.lines).map Utf8.encode, 0x0a ∉ l := by
    intro l hl
    obtain ⟨cs, hcs, rfl⟩ := List.mem_map.1 hl
    obtain ⟨i, -, hi⟩ := List.mem_flatMap.1 hcs
    exact Utf8.not_mem_encode hbyte (i.not_mem_lines (by decide) cs hi)
  have hbytes : d.buffer ++ chunks.flatten =
      terminated 0x0a ((items.flatMap Item.lines).map Utf8.encode) ++ [] := by
    rw [hbuffer, hchunks, text_flatMap, Utf8.encode_terminated hbyte, List.nil_append,
      List.append_nil]
  have hpush := push_of_terminated hbytes hlines List.not_mem_nil
  rw [pushAll_flatten (hbuffer ▸ List.not_mem_nil), lines_items h] at hpush
  obtain ⟨hstate, hevents⟩ := Prod.mk.inj hpush
  refine ⟨hstate.trans ?_, hevents⟩
  rw [withBuffer, ← hbuffer]

end Decoder

theorem frames_append (es fs : List Event) : frames (es ++ fs) = frames es ++ frames fs := by
  rw [frames, List.filter_append, List.map_append, frames, frames]

theorem frames_events (items : List Item) :
    frames (items.filterMap Item.event?) = (items.filterMap Item.message?).map Message.frame := by
  have hevents : items.filterMap Item.event? =
      (items.filterMap Item.message?).map fun m => ofFrame m.frame := List.map_filterMap.symm
  have hnames : ∀ e ∈ items.filterMap Item.event?, (e.name == defaultName) = true := by
    rw [hevents, List.forall_mem_map]
    exact fun _ _ => rfl
  rw [frames, List.filter_eq_self.2 hnames, hevents, List.map_map]
  exact List.map_congr_left fun m _ => String.ofList_toList

end PublishDesk.EventStream

namespace PublishDesk
open EventStream

/-- A view that is connected takes the frames of all chunks together. -/
theorem ViewRun.foldl_receive {v : ViewRun} (hopen : v.cancelled = false)
    (hstream : v.streamEnd = none) (chunks : List (List UInt8)) :
    chunks.foldl (fun v c => v.receive c) v =
      { v with
        decoder := (v.decoder.pushAll chunks).1
        session := v.session.dispatchAll (frames (v.decoder.pushAll chunks).2.flatten) } := by
  induction chunks generalizing v with
  | nil => rfl
  | cons c cs ih =>
    have hreceive : v.receive c =
        { v with
          decoder := (v.decoder.push c).1
          session := v.session.dispatchAll (frames (v.decoder.push c).2) } := by
      rw [receive, hopen, hstream]
      rfl
    have hopen' : (v.receive c).cancelled = false := by rw [hreceive]; exact hopen
    have hstream' : (v.receive c).streamEnd = none := by rw [hreceive]; exact hstream
    rw [List.foldl_cons, ih hopen' hstream', hreceive, Decoder.pushAll, List.flatten_cons,
      frames_append]
    simp only [Session.dispatchAll, List.foldl_append]

/-- A bus with a handler for every kind hands over the messages of all frames. -/
theorem ScriptedStream.handled_listen {s : ScriptedStream} {ms : List Message}
    (h : s.frames = ms.map Message.frame) {b : Bus Bus.Responder}
    (hb : ∀ k, (b.handler k).isSome) : (s.listen b).2.map (·.2) = ms := by
  have hfold (handled : List (String × Message)) :
      ((ms.map Message.frame).foldl (fun r f =>
        ((r.1.dispatch f).bus, r.2 ++ (r.1.dispatch f).handled)) (b, handled)).2.map (·.2) =
      handled.map (·.2) ++ ms := by
    clear h
    induction ms generalizing b handled with
    | nil => exact (List.append_nil _).symm
    | cons m ms ih =>
      obtain ⟨r, hr⟩ := Option.isSome_iff_exists.1 (hb m.kind)
      rw [List.map_cons, List.foldl_cons, Bus.dispatch_of_route (Bus.route_frame hr), ih]
      · simp only [List.map_append, List.map_singleton, List.append_assoc, List.singleton_append]
      · rwa [Bus.handler_postAll]
  rw [listen, h]
  exact hfold []

end PublishDesk
