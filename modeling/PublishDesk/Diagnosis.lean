import PublishDesk.Text.Lines

/-!
# Diagnoses

A diagnosis says what could not be done, and for what causes, the nearest first. It is shown on one
line or as a report over several lines.
-/

namespace PublishDesk

structure Diagnosis where
  context : String
  causes : List String := []
deriving DecidableEq, Repr

namespace Diagnosis

/-- The whole diagnosis on one line. -/
def line (d : Diagnosis) : String := String.intercalate ": " (d.context :: d.causes)

/-- A text with `first` in front of its first line and `more` in front of the others. -/
def indented (first more text : List Char) : List Char :=
  first ++ Text.joinWith ('\n' :: more) (Text.splitOn '\n' text)

/-- The causes one below the other. They are numbered unless there is only one. -/
def causeLines (causes : List String) : List (List Char) :=
  match causes with
  | [cause] => [indented "    ".toList "    ".toList cause.toList]
  | _ => causes.zipIdx.map fun (cause, n) =>
    let number := (toString n).toList
    indented (List.replicate (5 - number.length) ' ' ++ number ++ [':', ' '])
      (List.replicate 7 ' ') cause.toList

/-- What could not be done, and the causes below it. -/
def report (d : Diagnosis) : String :=
  if d.causes.isEmpty then d.context
  else d.context ++ "\n\nCaused by:\n" ++
    String.ofList (Text.joinWith ['\n'] (causeLines d.causes))

end Diagnosis
end PublishDesk
