import PublishDesk.Text.Lines
import PublishDesk.Text.Utf8

/-!
# Reading event streams

An event stream is a sequence of lines in UTF-8. A block of lines that ends with an empty line is
an event if it holds data. `Decoder.push` takes the stream in chunks, which may be cut anywhere,
and returns the events that each chunk completes.
-/

namespace PublishDesk.EventStream

structure Event where
  name : List Char
  data : List Char
deriving DecidableEq, Repr

/-- The name of an event that does not say its own. -/
def defaultName : List Char := "message".toList

/-- What has been read of a stream: the bytes of the line that is not complete yet, and the name
and the data of the block that is not complete yet. -/
structure Decoder where
  buffer : List UInt8 := []
  name : Option (List Char) := none
  data : List (List Char) := []
deriving DecidableEq, Repr

/-- The text of a line, without the carriage returns at its end. -/
def lineText (bs : List UInt8) : List Char :=
  (((Text.Utf8.decodeLossy bs).reverse.dropWhile (· == '\r'))).reverse

/-- The field of a line and its value: the text before the first colon, and what follows it but
for one space. -/
def field (line : List Char) : List Char × List Char :=
  (line.takeWhile (· != ':'),
    match line.dropWhile (· != ':') with
    | ':' :: ' ' :: value => value
    | ':' :: value => value
    | _ => [])

namespace Decoder

/-- Take in one line. -/
def line (d : Decoder) (l : List Char) : Decoder × Option Event :=
  if l.isEmpty then
    if d.data.isEmpty then ({ d with name := none }, none)
    else ({ d with name := none, data := [] },
      some ⟨d.name.getD defaultName, Text.joinWith ['\n'] d.data⟩)
  else if l.head? = some ':' then (d, none)
  else
    let f := field l
    if f.1 = "event".toList then ({ d with name := some f.2 }, none)
    else if f.1 = "data".toList then ({ d with data := d.data ++ [f.2] }, none)
    else (d, none)

/-- Take in lines, and collect the events that they complete. -/
def lines (d : Decoder) : List (List UInt8) → Decoder × List Event
  | [] => (d, [])
  | l :: ls =>
    let r := d.line (lineText l)
    let rs := lines r.1 ls
    (rs.1, r.2.toList ++ rs.2)

/-- Take in one chunk of bytes. -/
def push (d : Decoder) (chunk : List UInt8) : Decoder × List Event :=
  let parts := Text.splitOn 0x0a (d.buffer ++ chunk)
  let r := d.lines parts.dropLast
  ({ r.1 with buffer := (parts.getLast?).getD [] }, r.2)

/-- Take in chunks one after the other; the events of each chunk are returned. -/
def pushAll (d : Decoder) : List (List UInt8) → Decoder × List (List Event)
  | [] => (d, [])
  | c :: cs =>
    let r := d.push c
    let rs := pushAll r.1 cs
    (rs.1, r.2 :: rs.2)

end Decoder
end PublishDesk.EventStream
