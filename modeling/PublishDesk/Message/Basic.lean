/-!
# Messages between the host and a view

A view asks for the host's status and for saves; the host answers with a status or with how a save
ended. Every message has a kind, and every kind a tag that names it in a frame.
-/

namespace PublishDesk

/-- The kinds of messages. -/
inductive Kind where
  | ping
  | pong
  | requestSave
  | saveResult
deriving DecidableEq, Repr

namespace Kind

def all : List Kind := [.ping, .pong, .requestSave, .saveResult]

/-- The name of a kind in a frame. -/
def tag : Kind → String
  | .ping => "ping"
  | .pong => "pong"
  | .requestSave => "request_save"
  | .saveResult => "save_result"

/-- The kind with a given tag. -/
def ofTag? (t : String) : Option Kind := all.find? fun k => k.tag == t

theorem ofTag?_tag (k : Kind) : ofTag? k.tag = some k := by cases k <;> decide

theorem ofTag?_eq_some_iff {t : String} {k : Kind} : ofTag? t = some k ↔ t = k.tag := by
  constructor
  · intro h
    have := List.find?_some h
    simp only [beq_iff_eq] at this
    exact this.symm
  · rintro rfl
    exact ofTag?_tag k

end Kind

/-- What the host reports of itself: whether its worker is up, and where the open review of the
saved changes is to be found. -/
structure HostStatus where
  serverActive : Bool
  reviewLink : Option String
deriving DecidableEq, Repr

inductive Message where
  /-- A view asks for the status. -/
  | ping
  /-- The host answers a ping. -/
  | pong (status : HostStatus)
  /-- A view asks the host to save the pending changes. -/
  | requestSave (commitMessage : String)
  /-- The host reports whether a save succeeded. -/
  | saveResult (ok : Bool)
deriving DecidableEq, Repr

def Message.kind : Message → Kind
  | .ping => .ping
  | .pong _ => .pong
  | .requestSave _ => .requestSave
  | .saveResult _ => .saveResult

end PublishDesk
