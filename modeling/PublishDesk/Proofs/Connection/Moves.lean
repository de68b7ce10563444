import PublishDesk.Connection
import PublishDesk.Proofs.Bus.Dispatch
import PublishDesk.Proofs.Host.Requests

/-!
# What happens on a connection

A connection is moved by whoever uses the view and by whoever has the repository; everything else
follows by itself. `Connection.Move` lists the moves, and `Connection.events` what can be noted
while they are made: which save requests the view accepts, what becomes of each frame on either
side, which jobs the host starts for requests, and which steps the jobs make.
-/

namespace PublishDesk

open Job

namespace Connection

inductive Event where
  /-- The view has accepted a save request. -/
  | accepted (message : String)
  /-- The host has been given a frame. -/
  | taken (result : Except BusError Kind)
  /-- The host has started a job for a save request. -/
  | started (number : Nat) (message : String)
  /-- A job of the host has made a step. -/
  | made (number : Nat) (step : Made)
  /-- The view has been given a frame. -/
  | shown (result : Except BusError Kind)
  /-- The view has acted on a message. -/
  | applied (m : Message)

end Connection

open Connection (Event)

namespace HostCrew

/-- What is noted of a frame that the host is given. -/
def dispatchEvents (frame : String) (c : HostCrew) : List Event :=
  .taken (dispatch frame c).1 ::
    match c.desk.host.bus.route frame with
    | .ok (k, _, .requestSave message) =>
      if (Message.requestSave message).kind = k ∧ c.isAlive then [.started c.started message]
      else []
    | _ => []

def dispatchAllEvents : List String → HostCrew → List Event
  | [], _ => []
  | f :: fs, c => dispatchEvents f c ++ dispatchAllEvents fs (dispatch f c).2

end HostCrew

namespace Session

/-- What is noted of a frame that a view is given. -/
def dispatchEvents (frame : String) (s : Session) : List Event :=
  .shown (s.dispatch frame).1 ::
    match s.bus.route frame with
    | .ok (k, _, m) => if m.kind = k then [.applied m] else []
    | _ => []

def dispatchAllEvents : List String → Session → List Event
  | [], _ => []
  | f :: fs, s => dispatchEvents f s ++ dispatchAllEvents fs (s.dispatch f).2

end Session

namespace Connection

/-- A host and a view that have nothing to do yet. -/
def opened (target : String) (repository : MemoryRepository)
    (review : Except ReviewFailure (Option String)) (worker : Option Supervisor)
    (settings : ViewSettings) : Connection where
  host := HostCrew.attach
    { desk := { target := target, repository := repository, review := review, worker := worker } }
  view := Session.attach { settings := settings }

inductive Move where
  | save (message : String)
  | poll
  | runLoop
  | stopLoop
  | holdPushes
  | releasePush (gate : Nat)
  /-- Somebody else changes the working tree, the branches, or what fails. -/
  | update (repository : MemoryRepository)
  /-- Whatever is under way takes its course. -/
  | exchange
  | advance (milliseconds : Nat)

def move (c : Connection) : Move → Connection
  | .save message => { c with view := (c.view.requestSave message).2 }
  | .poll => { c with view := c.view.poll }
  | .runLoop => { c with view := c.view.runLoop }
  | .stopLoop => { c with view := c.view.stopLoop.2 }
  | .holdPushes => { c with host := c.host.holdPushes }
  | .releasePush gate => { c with host := c.host.releasePush gate }
  | .update r => { c with
    host := c.host.update fun old =>
      { r with commits := old.commits, pushed := old.pushed, calls := old.calls } }
  | .exchange => c.exchange
  | .advance milliseconds => c.advance milliseconds

def run (c : Connection) (moves : List Move) : Connection := moves.foldl move c

/-! ## Events -/

def exchangeEvents (c : Connection) : List Event :=
  let asked := c.view.drain
  let host := (HostCrew.dispatchAll asked.1 c.host).2
  HostCrew.dispatchAllEvents asked.1 c.host ++ host.settleSteps.map (fun e => .made e.1 e.2) ++
    asked.2.dispatchAllEvents (HostCrew.drain host.settle).1

def elapseEvents (target now : Nat) (c : Connection) : List Event :=
  let c := { c with view := Session.ringDue { c.view with now := now } }
  c.exchangeEvents ++
    match c.exchange.view.nextDue? with
    | none => []
    | some next =>
      if _h : now < next ∧ next ≤ target then elapseEvents target next c.exchange else []
termination_by target - now

def moveEvents (c : Connection) : Move → List Event
  | .save message => match (c.view.requestSave message).1 with
    | .ok () => [.accepted message]
    | .error _ => []
  | .exchange => c.exchangeEvents
  | .advance milliseconds => c.elapseEvents (c.view.now + milliseconds) c.view.now
  | _ => []

def events (c : Connection) : List Move → List Event
  | [] => []
  | m :: ms => c.moveEvents m ++ events (c.move m) ms

/-- The messages of the save requests that have been accepted, in order. -/
def accepted (events : List Event) : List String :=
  events.filterMap fun
    | .accepted m => some m
    | _ => none

/-- The save requests for which jobs have been started, in order, with the numbers of the jobs. -/
def started (events : List Event) : List (Nat × String) :=
  events.filterMap fun
    | .started n m => some (n, m)
    | _ => none

/-- The steps that have been made, with the numbers of the jobs. -/
def log (events : List Event) : List (Nat × Made) :=
  events.filterMap fun
    | .made n s => some (n, s)
    | _ => none

/-- Whether the job of a save request has got past the commit. -/
def isCommitted (events : List Event) (request : Nat × String) : Bool :=
  (log events).any fun e => e.1 == request.1 && (committed? e.2).isSome

/-- How many results of saves the view has acted on. -/
def results (events : List Event) : Nat :=
  events.countP fun
    | .applied m => m.kind == .saveResult
    | _ => false

@[simp] theorem accepted_append (l l' : List Event) :
    accepted (l ++ l') = accepted l ++ accepted l' := List.filterMap_append

@[simp] theorem started_append (l l' : List Event) :
    started (l ++ l') = started l ++ started l' := List.filterMap_append

@[simp] theorem log_append (l l' : List Event) : log (l ++ l') = log l ++ log l' :=
  List.filterMap_append

@[simp] theorem results_append (l l' : List Event) : results (l ++ l') = results l + results l' :=
  List.countP_append

end Connection
end PublishDesk
