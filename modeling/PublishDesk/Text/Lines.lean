/-!
# Lines of a text

A line ends at a line feed; one carriage return right before the line feed belongs to the line
end. A last line without a line feed keeps all its characters, and no empty line follows a final
line feed.
-/

namespace PublishDesk.Text

variable {α : Type} [DecidableEq α]

/-- The parts of a list between the occurrences of a separator; always at least one part. -/
def splitOn (sep : α) : List α → List (List α)
  | [] => [[]]
  | c :: cs =>
    if c = sep then [] :: splitOn sep cs
    else match splitOn sep cs with
      | [] => [[c]]
      | l :: ls => (c :: l) :: ls

theorem splitOn_ne_nil (sep : α) (cs : List α) : splitOn sep cs ≠ [] := by
  induction cs with
  | nil => simp [splitOn]
  | cons c cs ih =>
    simp only [splitOn]
    split
    · simp
    · split <;> simp

/-- The parts of a list with a separator between them. -/
def joinWith (sep : List α) : List (List α) → List α
  | [] => []
  | [l] => l
  | l :: ls => l ++ sep ++ joinWith sep ls

/-- The list without its last element if that is `c`. -/
def dropFinal (c : α) (l : List α) : List α := if l.getLast? = some c then l.dropLast else l

/-- The lines of a list, given its carriage return and its line feed. -/
def linesWith (cr lf : α) (cs : List α) : List (List α) :=
  let parts := splitOn lf cs
  parts.dropLast.map (dropFinal cr) ++ parts.getLast?.toList.filter (!·.isEmpty)

/-- The lines of a text, without their line ends. -/
def lines (cs : List Char) : List (List Char) := linesWith '\r' '\n' cs

/-- The lines of a byte sequence, without their line ends. -/
def byteLines (bs : List UInt8) : List (List UInt8) := linesWith 0x0d 0x0a bs

end PublishDesk.Text
