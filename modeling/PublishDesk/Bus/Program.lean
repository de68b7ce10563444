import PublishDesk.Bus.Basic

/-!
# Programs on a bus

Steps taken on one bus whose handlers note the messages that they are given and may post messages
themselves while they run.
-/

namespace PublishDesk.Bus

/-- A handler with a label, which posts `replies` on its own bus each time it runs. -/
structure Responder where
  label : String
  replies : List Message
deriving DecidableEq, Repr

inductive Step where
  | register (kind : Kind) (handler : Responder)
  | dispatch (frame : String)
  | post (message : Message)
  | receive
  | drain
  | detach

/-- The answer of a step. -/
inductive Answer where
  | done
  | dispatched (result : Except BusError Kind)
  | received (frame : Option String)
  | drained (frames : List String)

/-- What a step does: the bus after it, its answer, and the messages that handlers were given, with
their labels. -/
structure Outcome where
  bus : Bus Responder
  answer : Answer
  handled : List (String × Message)

/-- Hand a frame to its handler. A handler takes messages of its own kind only. -/
def dispatch (b : Bus Responder) (frame : String) : Outcome :=
  match b.route frame with
  | .error e => ⟨b, .dispatched (.error e), []⟩
  | .ok (k, h, m) =>
    if m.kind = k then ⟨b.postAll h.replies, .dispatched (.ok k), [(h.label, m)]⟩
    else ⟨b, .dispatched (.ok k), []⟩

def step (b : Bus Responder) : Step → Outcome
  | .register k h => ⟨b.register k h, .done, []⟩
  | .dispatch f => b.dispatch f
  | .post m => ⟨b.post m, .done, []⟩
  | .receive => ⟨b.receive.2, .received b.receive.1, []⟩
  | .drain => ⟨b.drain.2, .drained b.drain.1, []⟩
  | .detach => ⟨b.detach, .done, []⟩

/-- Take steps one after the other. -/
def run (b : Bus Responder) : List Step → List Outcome
  | [] => []
  | s :: ss => b.step s :: run (b.step s).bus ss

end PublishDesk.Bus
