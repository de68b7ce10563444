import PublishDesk.EventStream.Decoder
import PublishDesk.Proofs.Text.Lines

/-!
# Chunks of an event stream

A decoder keeps the beginning of a line until the line is complete, so the events of a stream do not
depend on how it is cut into chunks (`Decoder.pushAll_flatten`).
-/

namespace PublishDesk.EventStream.Decoder
open Text

/-- The decoder with another beginning of a line. -/
def withBuffer (d : Decoder) (buffer : List UInt8) : Decoder := { d with buffer := buffer }

theorem line_withBuffer (d : Decoder) (b : List UInt8) (l : List Char) :
    (d.withBuffer b).line l = ((d.line l).1.withBuffer b, (d.line l).2) := by
  have hdata : (d.withBuffer b).data = d.data := rfl
  unfold line
  split
  · rw [hdata]
    split <;> rfl
  · split
    · rfl
    · dsimp only
      split
      · rfl
      · split <;> rfl

theorem lines_withBuffer (d : Decoder) (b : List UInt8) (ls : List (List UInt8)) :
    (d.withBuffer b).lines ls = ((d.lines ls).1.withBuffer b, (d.lines ls).2) := by
  induction ls generalizing d with
  | nil => rfl
  | cons l ls ih => simp only [lines, line_withBuffer, ih]

theorem lines_append (d : Decoder) (ls ms : List (List UInt8)) :
    d.lines (ls ++ ms) =
      (((d.lines ls).1.lines ms).1, (d.lines ls).2 ++ ((d.lines ls).1.lines ms).2) := by
  induction ls generalizing d with
  | nil => rfl
  | cons l ls ih => simp only [List.cons_append, lines, ih, List.append_assoc]

/-- A chunk completes the lines up to its last line feed. -/
theorem push_of_terminated {d : Decoder} {chunk tail : List UInt8} {ls : List (List UInt8)}
    (h : d.buffer ++ chunk = terminated 0x0a ls ++ tail) (hls : ∀ l ∈ ls, 0x0a ∉ l)
    (htail : 0x0a ∉ tail) :
    d.push chunk = ((d.lines ls).1.withBuffer tail, (d.lines ls).2) := by
  rw [push, h, splitOn_terminated hls htail]
  simp only [List.dropLast_concat, List.getLast?_concat, Option.getD_some]
  rfl

theorem push_append (d : Decoder) (a b : List UInt8) :
    d.push (a ++ b) = (((d.push a).1.push b).1, (d.push a).2 ++ ((d.push a).1.push b).2) := by
  obtain ⟨ls, tail, hls, htail, ha⟩ := exists_terminated 0x0a (d.buffer ++ a)
  obtain ⟨ms, rest, hms, hrest, hb⟩ := exists_terminated 0x0a (tail ++ b)
  have hab : d.buffer ++ (a ++ b) = terminated 0x0a (ls ++ ms) ++ rest := by
    rw [← List.append_assoc, ha, List.append_assoc, hb, terminated_append, List.append_assoc]
  have hboth : ∀ l ∈ ls ++ ms, 0x0a ∉ l := List.forall_mem_append.2 ⟨hls, hms⟩
  rw [push_of_terminated ha hls htail, push_of_terminated hab hboth hrest,
    push_of_terminated (d := (d.lines ls).1.withBuffer tail) hb hms hrest, lines_withBuffer,
    lines_append]
  rfl

theorem push_nil {d : Decoder} (h : 0x0a ∉ d.buffer) : d.push [] = (d, []) := by
  have hbuffer : d.buffer ++ [] = terminated 0x0a [] ++ d.buffer := List.append_nil _
  exact push_of_terminated hbuffer nofun h

theorem lineFeed_not_mem_push (d : Decoder) (chunk : List UInt8) :
    0x0a ∉ (d.push chunk).1.buffer := by
  obtain ⟨ls, tail, hls, htail, h⟩ := exists_terminated 0x0a (d.buffer ++ chunk)
  rw [push_of_terminated h hls htail]
  exact htail

/-- Where a stream is cut makes no difference. -/
theorem pushAll_flatten {d : Decoder} (h : 0x0a ∉ d.buffer) (chunks : List (List UInt8)) :
    d.push chunks.flatten = ((d.pushAll chunks).1, (d.pushAll chunks).2.flatten) := by
  induction chunks generalizing d with
  | nil => exact push_nil h
  | cons c cs ih =>
    rw [List.flatten_cons, push_append, ih (lineFeed_not_mem_push d c)]
    rfl

end PublishDesk.EventStream.Decoder
