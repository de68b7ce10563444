import PublishDesk.Client.Transport
import PublishDesk.View.Session

/-!
# Connected views

A view that is connected to a host reads the host's stream, posts what the session has to say, and
waits for something: a save for its result, an attached view for anything to show. These go on side
by side, so each of their steps is a function of its own. When the view closes, a stream that has
broken off before is what it reports.
-/

namespace PublishDesk

/-- A session connected to a host. -/
structure ViewRun where
  session : Session
  decoder : EventStream.Decoder := {}
  /-- How the stream ended, once it has. -/
  streamEnd : Option (Except TransportFailure Unit) := none
  /-- Whether the view is to stop. -/
  cancelled : Bool := false

/-- How a command ends: its exit code, and the lines it prints. -/
structure Ending where
  code : Nat
  output : List String := []
  errors : List String := []
deriving DecidableEq, Repr

namespace Ending

def succeeded : Nat := 0
def invalid : Nat := 1
def saveFailed : Nat := 2
def timedOut : Nat := 3

/-- The end of a command that could not do what it was asked for. -/
def ofDiagnosis (d : Diagnosis) : Ending := { code := invalid, errors := [d.line] }

end Ending

/-- What a command has come to before its view is closed: a result, which is printed at once, or a
failure, which is reported later. -/
inductive Verdict where
  | result (ending : Ending)
  | failure (diagnosis : Diagnosis)
deriving DecidableEq, Repr

namespace ViewRun

/-- A view right after it has been connected. -/
def connected (settings : ViewSettings) : ViewRun :=
  { session := Session.attach { settings := settings } }

/-- A chunk of the stream arrives. A view that is to stop reads no further. -/
def receive (chunk : List UInt8) (v : ViewRun) : ViewRun :=
  if v.cancelled || v.streamEnd.isSome then v
  else
    let r := v.decoder.push chunk
    { v with decoder := r.1, session := v.session.dispatchAll (EventStream.frames r.2) }

/-- The stream ends, or breaks off. -/
def endStream (result : Except TransportFailure Unit) (v : ViewRun) : ViewRun :=
  if v.streamEnd.isSome then v
  else { v with streamEnd := some (if v.cancelled then .ok () else result), cancelled := true }

/-- The next frame to be posted to the host. -/
def nextFrame? (v : ViewRun) : Option String × ViewRun :=
  if v.cancelled then (none, v)
  else
    let r := v.session.bus.receive
    (r.1, { v with session := { v.session with bus := r.2 } })

/-- Time passes. -/
def advance (milliseconds : Nat) (v : ViewRun) : ViewRun :=
  { v with session := v.session.advance milliseconds }

/-- Close the view. A stream that has broken off is reported after a result, and in place of a
failure. -/
def close (verdict : Verdict) (v : ViewRun) : Ending :=
  match verdict, v.streamEnd with
  | .result e, some (.error broken) =>
    { code := Ending.invalid, output := e.output, errors := e.errors ++ [broken.diagnosis.line] }
  | .failure _, some (.error broken) => Ending.ofDiagnosis broken.diagnosis
  | .result e, _ => e
  | .failure d, _ => Ending.ofDiagnosis d

end ViewRun

/-! ## Saving -/

/-- A view that waits for the result of a save. -/
structure SaveRun where
  view : ViewRun
  /-- The time at which it gives up. -/
  deadline : Nat
  timeoutSeconds : Nat

namespace SaveRun

/-- Ask for a save. A request that is refused ends the command. -/
def start (message : String) (timeoutSeconds : Nat) (view : ViewRun) : Except Ending SaveRun :=
  let (answer, session) := view.session.requestSave message
  let view := { view with session := session }
  match answer with
  | .ok () => .ok ⟨view, session.now + 1000 * timeoutSeconds, timeoutSeconds⟩
  | .error r => .error (view.close (.failure ⟨r.message, []⟩))

/-- What the state of the session comes to, if anything: a save that has succeeded or failed, else
a timeout, else a stream that has ended. -/
def verdict? (r : SaveRun) : Option Verdict :=
  match r.view.session.state.save with
  | .succeeded => some (.result { code := Ending.succeeded, output := ["saved"] })
  | .failed =>
    some (.result
      { code := Ending.saveFailed
        errors := ["save failed; see the host log for the failing step"] })
  | .idle | .inFlight =>
    if r.deadline ≤ r.view.session.now then
      some (.result
        { code := Ending.timedOut
          errors := ["no save result within " ++ toString r.timeoutSeconds ++ "s"] })
    else if r.view.cancelled then
      some (.failure ⟨"host closed the event stream before the save finished", []⟩)
    else none

/-- Look at the session, and end if there is a verdict. -/
def poll (r : SaveRun) : Option Ending := r.verdict?.map r.view.close

end SaveRun

/-! ## Watching -/

/-- A view that prints its status line whenever that changes. -/
structure WatchRun where
  view : ViewRun
  /-- The number of states published when it looked last. -/
  seen : Nat
  /-- The line printed last. -/
  lastLine : String := ""

namespace WatchRun

/-- Start asking for the status. -/
def start (view : ViewRun) : WatchRun :=
  { view := { view with session := view.session.runLoop }, seen := view.session.published }

/-- Look at the session: the line to be printed, if any. -/
def poll (r : WatchRun) : Option String × WatchRun :=
  let session := r.view.session
  if session.published = r.seen then (none, r)
  else
    let line := session.state.statusLine
    let r := { r with seen := session.published }
    if line = r.lastLine then (none, r) else (some line, { r with lastLine := line })

/-- The end of the command, once the view is to stop. -/
def ending? (r : WatchRun) : Option Ending :=
  if r.view.cancelled then some (r.view.close (.result { code := Ending.succeeded })) else none

end WatchRun
end PublishDesk
