import PublishDesk.EventStream.Decoder

/-!
# Writing event streams

An event is written as a line with its name, a line for each line of its data, and an empty line. A
comment keeps a stream alive while there are no events; readers skip it.
-/

namespace PublishDesk.EventStream

/-- One line of an event. -/
def fieldLine (name value : List Char) : List Char := name ++ [':', ' '] ++ value ++ ['\n']

/-- The text of an event. -/
def Event.render (e : Event) : List Char :=
  fieldLine "event".toList e.name ++
    (Text.splitOn '\n' e.data).flatMap (fieldLine "data".toList) ++ ['\n']

/-- A comment that means nothing. -/
def keepAlive : List Char := ": keep-alive\n\n".toList

/-- The event that carries a frame. -/
def ofFrame (frame : String) : Event := ⟨defaultName, frame.toList⟩

end PublishDesk.EventStream
