import PublishDesk.Text.Lines
import PublishDesk.Text.Utf8

/-!
# Output of workers

The lines that a worker writes are passed on as texts. A line that is not UTF-8 ends this.
-/

namespace PublishDesk.Worker

/-- The lines of an output that are passed on. -/
def forwardedLines (output : List UInt8) : List (List Char) :=
  (((Text.byteLines output).map Text.Utf8.decode?).takeWhile Option.isSome).filterMap id

end PublishDesk.Worker
