import PublishDesk.Endpoint.Target
import PublishDesk.Host.Job
import PublishDesk.Json.Value

/-!
# Requests to the host and their answers

The host answers requests for four paths. A path that is known may still be asked for by a method
that it does not take.
-/

namespace PublishDesk.Endpoint

structure Request where
  method : String
  path : String
  body : List UInt8 := []
deriving DecidableEq, Repr

/-- The request with the given method and target, if there can be one. -/
def Request.make? (method target : String) (body : List UInt8) : Option Request :=
  if Target.isMethod method then (Target.path? target).map (⟨method, ·, body⟩) else none

/-- What can be asked for. -/
inductive Route where
  | health
  | messages
  | status
  | events
deriving DecidableEq, Repr

namespace Route

def all : List Route := [.health, .messages, .status, .events]

def path : Route → String
  | .health => "/api/health"
  | .messages => "/api/messages"
  | .status => "/api/status"
  | .events => "/events"

/-- The methods that a route takes. What may be got may also be asked for without its body. -/
def methods : Route → List String
  | .messages => ["POST"]
  | _ => ["GET", "HEAD"]

def ofPath? (p : String) : Option Route := all.find? fun r => r.path == p

end Route

/-- Answers by their numbers. -/
inductive StatusCode where
  | ok
  | accepted
  | badRequest
  | notFound
  | methodNotAllowed
  | conflict
  | unprocessable
deriving DecidableEq, Repr

def StatusCode.number : StatusCode → Nat
  | .ok => 200
  | .accepted => 202
  | .badRequest => 400
  | .notFound => 404
  | .methodNotAllowed => 405
  | .conflict => 409
  | .unprocessable => 422

structure Response where
  code : StatusCode
  contentType : Option String := none
  body : List Char := []
deriving DecidableEq, Repr

/-- The route of a request, or why it has none. -/
def Request.route (r : Request) : Except StatusCode Route :=
  match Route.ofPath? r.path with
  | none => .error .notFound
  | some route => if route.methods.contains r.method then .ok route else .error .methodNotAllowed

/-! ## The status as JSON -/

open Json

/-- Details of the worker. -/
def workerValue (w : WorkerSnapshot) : Value :=
  .object ([
    ("command".toList, .array (w.command.map fun word => .text word.toList)),
    ("working_directory".toList, .text w.directory),
    ("status".toList, .text w.status.label.toList),
    ("restart_count".toList, .number (.integer w.restarts))] ++
    (w.pid.map fun p => ("pid".toList, Value.number (.integer p))).toList)

/-- A status report. What is missing is left out. -/
def reportValue (r : StatusReport) : Value :=
  .object (("server_active".toList, .flag r.status.serverActive) ::
    ((r.status.reviewLink.map fun l => ("review_link".toList, Value.text l.toList)).toList ++
      (r.worker.map fun w => ("worker".toList, workerValue w)).toList))

end PublishDesk.Endpoint
