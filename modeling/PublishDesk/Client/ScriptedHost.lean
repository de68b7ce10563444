import PublishDesk.Bus.Program
import PublishDesk.Client.Transport

/-!
# Scripted hosts

A host whose answers are prepared, or an address where nobody listens. It records the requests that
have reached it.
-/

namespace PublishDesk

/-- A prepared stream of events. -/
structure ScriptedStream where
  code : Nat := 200
  chunks : List (List UInt8) := []
  /-- Whether the stream breaks off before its announced end. -/
  broken : Bool := false
deriving DecidableEq, Repr

structure ScriptedHost where
  /-- The address that the host is asked at. -/
  base : String := ""
  /-- Whether somebody listens there. -/
  listening : Bool := true
  health : Nat := 200
  /-- The answers to the frames to come; after them all frames are accepted. -/
  messages : List Nat := []
  stream : ScriptedStream := {}
  requests : List Outgoing := []
deriving DecidableEq, Repr

namespace ScriptedHost

/-- Answer a request. -/
def answer (r : Outgoing) (h : ScriptedHost) : Reply × ScriptedHost :=
  match Transport.destination h.base r with
  | .error causes => (.failed causes, h)
  | .ok u =>
    if !h.listening then (.failed (Transport.refusal u), h)
    else
      let h := { h with requests := h.requests ++ [r] }
      if r = Transport.healthRequest then (.answered h.health, h)
      else if r = Transport.eventsRequest then (.answered h.stream.code, h)
      else (.answered (h.messages.head?.getD 202), { h with messages := h.messages.tail })

/-- Carry out a program of requests. -/
def perform {α : Type} (p : Requests α) (h : ScriptedHost) : α × ScriptedHost := p.run answer h

end ScriptedHost

namespace ScriptedStream

/-- All frames of a stream, in order. -/
def frames (s : ScriptedStream) : List String :=
  EventStream.frames (EventStream.Decoder.pushAll {} s.chunks).2.flatten

/-- How a stream ends. -/
def ending (s : ScriptedStream) : Except TransportFailure Unit :=
  if s.broken then .error (.readFailed []) else .ok ()

/-- Hand all frames of a stream to a bus. Frames that are rejected are lost. The messages that
handlers were given are returned with the bus after them. -/
def listen (s : ScriptedStream) (b : Bus Bus.Responder) :
    Bus Bus.Responder × List (String × Message) :=
  s.frames.foldl (fun (b, handled) f =>
    let o := b.dispatch f
    (o.bus, handled ++ o.handled)) (b, [])

end ScriptedStream
end PublishDesk
