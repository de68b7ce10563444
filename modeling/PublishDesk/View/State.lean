import PublishDesk.Message.Basic
import PublishDesk.Text.Blank

/-!
# What a view shows

A view shows whether the worker is up, how the last save went, and a link to the open review. The
save indicator has a generation, which every change of it raises: who wants to clear the indicator
later names the generation that is to be cleared, so that a newer indicator is left alone.
-/

namespace PublishDesk

/-- The state of the worker, as far as the view knows. -/
inductive ServerIndicator where
  | unknown
  | running
  | down
deriving DecidableEq, Repr

def ServerIndicator.label : ServerIndicator → String
  | .unknown => "unknown"
  | .running => "running"
  | .down => "down"

/-- The state of the latest save. -/
inductive SaveIndicator where
  | idle
  | inFlight
  | succeeded
  | failed
deriving DecidableEq, Repr

/-- The part of the status line that shows a save. -/
def SaveIndicator.suffix : SaveIndicator → String
  | .idle => ""
  | .inFlight => " | saving..."
  | .succeeded => " | saved"
  | .failed => " | save failed"

/-- Why a view refuses a save request. -/
inductive SaveRefusal where
  | tooShort (least length : Nat)
  | inFlight
deriving DecidableEq, Repr

def SaveRefusal.message : SaveRefusal → String
  | .tooShort least length =>
    "commit message needs at least " ++ toString least ++ " non-blank characters (got " ++
      toString length ++ ")"
  | .inFlight => "a save is already in flight"

/-- A commit message has to have a least number of characters, not counting the blanks at its ends,
and at least one in any case. -/
def checkMessage (message : String) (least : Nat) : Except SaveRefusal Unit :=
  let length := (Text.trim message.toList).length
  if length = 0 ∨ length < least then .error (.tooShort least length) else .ok ()

structure ViewState where
  server : ServerIndicator := .unknown
  reviewLink : Option String := none
  save : SaveIndicator := .idle
  generation : UInt64 := 0
deriving DecidableEq, Repr

namespace ViewState

/-- Show a status of the host. -/
def applyStatus (s : ViewState) (status : HostStatus) : ViewState :=
  { s with
    server := if status.serverActive then .running else .down
    reviewLink := status.reviewLink }

/-- Whether two states show the same server and the same link. -/
def sameStatus (s t : ViewState) : Bool := s.server == t.server && s.reviewLink == t.reviewLink

/-- Show a save indicator, in a new generation. -/
def setIndicator (s : ViewState) (i : SaveIndicator) : ViewState :=
  { s with save := i, generation := s.generation + 1 }

/-- Show that a save has been asked for, and give the generation of that; refused while another save
is shown. -/
def beginSave (s : ViewState) : Except SaveRefusal UInt64 × ViewState :=
  if s.save = .inFlight then (.error .inFlight, s)
  else
    let t := s.setIndicator .inFlight
    (.ok t.generation, t)

/-- Show how a save ended. -/
def finishSave (s : ViewState) (ok : Bool) : ViewState :=
  s.setIndicator (if ok then .succeeded else .failed)

/-- Whether clearing the given generation changes anything. -/
def isClearable (s : ViewState) (generation : UInt64) : Bool :=
  s.generation == generation && s.save != .idle

/-- Clear the save indicator if it is of the given generation. -/
def clear (s : ViewState) (generation : UInt64) : ViewState :=
  if s.isClearable generation then { s with save := .idle } else s

/-- The line that a view prints. -/
def statusLine (s : ViewState) : String :=
  "Status: " ++ s.server.label ++ s.save.suffix ++
    (match s.reviewLink with
      | none => ""
      | some link => " | approve here: " ++ link)

end ViewState
end PublishDesk
