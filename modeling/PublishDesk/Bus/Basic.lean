import PublishDesk.Message.Frame

/-!
# Message buses

Each side of a connection has a bus. Messages posted on it are queued as frames for the other side;
frames from the other side are handed to the handler of their kind. What a handler is, and what it
does, is the business of the owner of the bus: `Bus.route` only says which handler gets which
message.
-/

namespace PublishDesk

/-- Why a frame was not handed to a handler. -/
inductive BusError where
  /-- The frame has no readable tag. -/
  | malformed (source : Json.Failure)
  | unknownKind (tag : String)
  | unhandled (kind : Kind)
  /-- The frame is not a message of the kind that its tag says. -/
  | payload (kind : Kind) (source : Json.Failure)
deriving DecidableEq, Repr

/-- The wording of the errors that are not those of a text format. -/
def BusError.message? : BusError → Option String
  | .unknownKind t => some ("unknown message kind '" ++ t ++ "'")
  | .unhandled k => some ("no handler registered for '" ++ k.tag ++ "'")
  | _ => none

/-- A bus with handlers of type `H`. The outbound queue is gone once the transport has let go of
it. -/
structure Bus (H : Type) where
  handler : Kind → Option H
  outbound : Option (List String)

namespace Bus

variable {H : Type}

/-- A bus without handlers. -/
def empty : Bus H := ⟨fun _ => none, some []⟩

/-- Install the handler of a kind; it replaces the one before it. -/
def register (b : Bus H) (k : Kind) (h : H) : Bus H :=
  { b with handler := fun k' => if k' = k then some h else b.handler k' }

/-- Queue a message for the other side, or drop it if nobody takes it. -/
def post (b : Bus H) (m : Message) : Bus H :=
  { b with outbound := b.outbound.map (· ++ [m.frame]) }

/-- Queue messages in order. -/
def postAll (b : Bus H) (ms : List Message) : Bus H := ms.foldl post b

/-- Take the next frame off the queue. -/
def receive (b : Bus H) : Option String × Bus H :=
  match b.outbound with
  | some (f :: fs) => (some f, { b with outbound := some fs })
  | _ => (none, b)

/-- Take all frames off the queue. -/
def drain (b : Bus H) : List String × Bus H :=
  (b.outbound.getD [], { b with outbound := b.outbound.map fun _ => [] })

/-- Let go of the queue. -/
def detach (b : Bus H) : Bus H := { b with outbound := none }

/-- The kind that a frame is tagged with, the handler of that kind, and the message. The frame is
read as a message only when a handler is there. -/
def route (b : Bus H) (frame : String) : Except BusError (Kind × H × Message) := do
  let tag ← (peekTag frame).mapError .malformed
  match Kind.ofTag? tag with
  | none => throw (.unknownKind tag)
  | some k =>
    match b.handler k with
    | none => throw (.unhandled k)
    | some h =>
      let m ← (Message.decode frame).mapError (.payload k)
      return (k, h, m)

end Bus
end PublishDesk
