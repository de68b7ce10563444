import PublishDesk.Endpoint.Response
import PublishDesk.EventStream.Encoder
import PublishDesk.Host.Crew
import PublishDesk.Worker.Scripted

/-!
# The endpoint of a host

Views reach the host by requests, and one view at a time may hold the stream of the frames that the
host posts. What was posted while no view was attached is dropped when one attaches. After a
shutdown no frame is delivered any more.
-/

namespace PublishDesk

/-- A view's stream. -/
structure ViewStream where
  /-- When it was opened or last yielded something. -/
  active : Nat
  ended : Bool := false
deriving DecidableEq, Repr

structure Endpoint where
  host : HostCrew
  environment : Environment
  shutDown : Bool := false
  /-- The time in milliseconds. -/
  now : Nat := 0
  /-- The streams that have been opened and not been left, by the names of their views. -/
  streams : List (String × ViewStream) := []

namespace Endpoint

/-- The time in milliseconds after which a stream without events yields a comment. -/
def keepAliveInterval : Nat := 15000

/-! ## Streams -/

/-- Whether a view holds the stream. -/
def isHeld (e : Endpoint) : Bool := e.streams.any fun s => !s.2.ended

def removeStream (view : String) (e : Endpoint) : Endpoint :=
  { e with streams := e.streams.filter fun s => s.1 != view }

def setStream (view : String) (s : ViewStream) (e : Endpoint) : Endpoint :=
  { e with streams := (view, s) :: (e.removeStream view).streams }

/-- Drop the frames that have been posted so far. -/
def dropFrames (e : Endpoint) : Endpoint := { e with host := (HostCrew.drain e.host).2 }

/-- Open the stream for a view, unless a view holds it. -/
def attach (view : String) (e : Endpoint) : Response × Endpoint :=
  if e.isHeld then ({ code := .conflict }, e)
  else
    ({ code := .ok, contentType := some "text/event-stream" },
      e.dropFrames.setStream view { active := e.now })

/-- The next frame for the view that holds the stream. -/
def deliver? (e : Endpoint) : Option String × Endpoint :=
  if e.shutDown then (none, e)
  else
    let r := e.host.desk.host.bus.receive
    (r.1, { e with host := HostCrew.setHost { e.host.desk.host with bus := r.2 } e.host })

/-- At most `n` frames for the view that holds the stream. -/
def deliverUpTo : (n : Nat) → Endpoint → List String × Endpoint
  | 0, e => ([], e)
  | n + 1, e => match e.deliver? with
    | (none, e) => ([], e)
    | (some f, e) =>
      let rest := deliverUpTo n e
      (f :: rest.1, rest.2)

/-- What a view's stream yields now, and whether that was its end; none if there is no such
stream. -/
def read (view : String) (e : Endpoint) : Option (List Char × Bool) × Endpoint :=
  match e.streams.lookup view with
  | none => (none, e)
  | some s =>
    if s.ended then (some ([], true), e)
    else if e.shutDown then (some ([], true), e.setStream view { s with ended := true })
    else
      let (frames, e) := e.deliverUpTo ((e.host.desk.host.bus.outbound.getD []).length)
      if frames.isEmpty then
        if s.active + keepAliveInterval ≤ e.now then
          (some (EventStream.keepAlive, false), e.setStream view { active := e.now })
        else (some ([], false), e)
      else
        (some (frames.flatMap fun f => (EventStream.ofFrame f).render, false),
          e.setStream view { active := e.now })

/-- Close a view's stream. -/
def leave (view : String) (e : Endpoint) : Endpoint := e.removeStream view

/-! ## Requests -/

/-- Hand a frame from the view to the host. -/
def takeMessage (body : List UInt8) (e : Endpoint) : Response × Endpoint :=
  match Text.Utf8.decode? body with
  | none => ({ code := .badRequest }, e)
  | some text =>
    let r := HostCrew.dispatch (String.ofList text) e.host
    ({ code := match r.1 with
        | .ok _ => .accepted
        | .error (.unhandled _) => .unprocessable
        | .error _ => .badRequest },
      { e with host := r.2 })

/-- Report the status; none if that has to wait. -/
def reportStatus (e : Endpoint) : Option Response × Endpoint :=
  let r := e.host.ask (Job.report e.host.desk.target)
  (r.1.map fun report =>
      { code := .ok, contentType := some "application/json", body := (reportValue report).render },
    { e with host := r.2 })

/-- Ask for the stream in a request that is given up if it does not end at once. -/
def tryStream (withBody : Bool) (e : Endpoint) : Option Response × Endpoint :=
  if e.isHeld then (some { code := .conflict }, e)
  else
    (if withBody && !e.shutDown then none
      else some { code := .ok, contentType := some "text/event-stream" }, e.dropFrames)

/-- The answer that says that the host is there. -/
def health : Response :=
  { code := .ok, contentType := some "text/plain; charset=utf-8", body := ['o', 'k'] }

/-- Answer a request; none if it has to wait, in which case it is given up. -/
def respond (r : Request) (e : Endpoint) : Option Response × Endpoint :=
  let withBody := r.method != "HEAD"
  let (response, e) : Option Response × Endpoint := match r.route with
    | .error code => (some { code := code }, e)
    | .ok .health => (some health, e)
    | .ok .messages =>
      let (response, e) := e.takeMessage r.body
      (some response, e)
    | .ok .status => e.reportStatus
    | .ok .events => e.tryStream withBody
  (response.map fun a => if withBody then a else { a with body := [] }, e)

/-! ## The worker -/

/-- Change the supervisor, if there is one. -/
def mapWorker (f : Supervisor → Supervisor) (e : Endpoint) : Endpoint :=
  { e with host := { e.host with desk := { e.host.desk with worker := e.host.desk.worker.map f } } }

/-- Let the monitor of the worker work until it has to wait. -/
def settleWorker (e : Endpoint) : Endpoint :=
  e.mapWorker fun s =>
    (ScriptedWorker.settle { supervisor := s, environment := e.environment }).supervisor

def startWorker (e : Endpoint) : Endpoint := e.mapWorker Supervisor.start

/-- End all streams and the worker; the result says whether that had not been asked for before. -/
def shutdown (e : Endpoint) : Bool × Endpoint :=
  (!e.shutDown, { e with shutDown := true }.mapWorker Supervisor.cancel)

/-- Shut down if there is a worker, and wait until it has been stopped. -/
def stopWorker (e : Endpoint) : Endpoint :=
  if e.host.desk.worker.isSome then (e.shutdown.2.settleWorker).mapWorker Supervisor.finishStop
  else e

/-- Let everything work until it has to wait. -/
def settle (e : Endpoint) : Endpoint :=
  let e := e.settleWorker
  { e with host := e.host.settle }

/-- Post a message to the view. -/
def post (m : Message) (e : Endpoint) : Endpoint :=
  let h := e.host.desk.host
  { e with host := HostCrew.setHost { h with bus := h.bus.post m } e.host }

end Endpoint
end PublishDesk
