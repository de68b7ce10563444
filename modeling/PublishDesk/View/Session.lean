import PublishDesk.Bus.Basic
import PublishDesk.Settings.Basic
import PublishDesk.View.State

/-!
# View sessions

A session shows what the host reports. It asks for the status at regular intervals, sends save
requests, and clears a save indicator a while after it was set. Time is counted in milliseconds and
passes only by `Session.elapse`.
-/

namespace PublishDesk

/-- What a session does at a certain time. -/
inductive Alarm where
  /-- Clear the save indicator, if it is still of this generation. -/
  | clear (generation : UInt64)
  /-- Ask for the status, in the poll loop of this number. -/
  | poll (loop : Nat)
deriving DecidableEq, Repr

structure Session where
  settings : ViewSettings := {}
  bus : Bus Unit := .empty
  state : ViewState := {}
  /-- How often a state has been published. -/
  published : Nat := 0
  now : Nat := 0
  /-- What is to be done and when, in the order in which it was decided. -/
  alarms : List (Nat × Alarm) := []
  /-- The number of poll loops so far; the latest one can be stopped. -/
  loops : Nat := 0
  /-- Whether the latest poll loop, or the one to come if there is none yet, has been stopped. -/
  stopped : Bool := false

namespace Session

/-- Take status reports and save results. -/
def attach (s : Session) : Session :=
  { s with bus := (s.bus.register .pong ()).register .saveResult () }

/-- Publish a state. -/
def publish (state : ViewState) (s : Session) : Session :=
  { s with state := state, published := s.published + 1 }

def post (m : Message) (s : Session) : Session := { s with bus := s.bus.post m }

/-- Do something after a delay. -/
def arm (delay : Nat) (a : Alarm) (s : Session) : Session :=
  { s with alarms := s.alarms ++ [(s.now + delay, a)] }

/-- Clear the current save indicator later. -/
def scheduleClear (s : Session) : Session :=
  s.arm s.settings.indicatorClear (.clear s.state.generation)

/-- Ask for the status. -/
def poll (s : Session) : Session := s.post .ping

/-- Ask for a save, unless the message is too short or a save is in flight. -/
def requestSave (message : String) (s : Session) : Except SaveRefusal Unit × Session :=
  match checkMessage message s.settings.minMessageLength with
  | .error r => (.error r, s)
  | .ok () => match s.state.beginSave with
    | (.error r, state) => (.error r, { s with state := state })
    | (.ok _, state) => (.ok (), ((s.publish state).post (.requestSave message)).scheduleClear)

/-- Take a message. A status is published only if it changes what is shown. -/
def handle (m : Message) (s : Session) : Session :=
  match m with
  | .pong status =>
    let state := s.state.applyStatus status
    if s.state.sameStatus state then s else s.publish state
  | .saveResult ok => (s.publish (s.state.finishSave ok)).scheduleClear
  | _ => s

/-- Take a frame from the host. -/
def dispatch (frame : String) (s : Session) : Except BusError Kind × Session :=
  match s.bus.route frame with
  | .error e => (.error e, s)
  | .ok (k, _, m) => (.ok k, if m.kind = k then s.handle m else s)

/-- Take frames one after the other, whatever becomes of them. -/
def dispatchAll (frames : List String) (s : Session) : Session :=
  frames.foldl (fun s f => (s.dispatch f).2) s

/-- Let go of the queue of frames to the host. -/
def detach (s : Session) : Session := { s with bus := s.bus.detach }

/-- Take all frames that are queued for the host. -/
def drain (s : Session) : List String × Session := (s.bus.drain.1, { s with bus := s.bus.drain.2 })

/-! ## Poll loops -/

/-- Start a poll loop. It asks at once, and then at every interval; no loop has the interval 0. -/
def runLoop (s : Session) : Session :=
  let s := { s with loops := s.loops + 1, stopped := false }
  if s.settings.pollInterval = 0 then s
  else s.poll.arm s.settings.pollInterval (.poll s.loops)

/-- Stop the latest poll loop; the result says whether it had not been stopped before. -/
def stopLoop (s : Session) : Bool × Session :=
  (!s.stopped,
    { s with stopped := true, alarms := s.alarms.filter fun a => a.2 != .poll s.loops })

/-! ## Time -/

def ring (s : Session) : Alarm → Session
  | .clear g => if s.state.isClearable g then s.publish (s.state.clear g) else s
  | .poll n => s.poll.arm s.settings.pollInterval (.poll n)

/-- Do everything that is due. -/
def ringDue (s : Session) : Session :=
  let due := s.alarms.filter (·.1 ≤ s.now)
  (due.map (·.2)).foldl ring { s with alarms := s.alarms.filter (s.now < ·.1) }

/-- The time of the next thing to be done. -/
def nextDue? (s : Session) : Option Nat := (s.alarms.map (·.1)).min?

/-- Let time pass from `now` to `target`, doing everything at its time. -/
def elapse (target now : Nat) (s : Session) : Session :=
  let s := ringDue { s with now := now }
  match s.nextDue? with
  | none => { s with now := target }
  | some next =>
    if _h : now < next ∧ next ≤ target then elapse target next s else { s with now := target }
termination_by target - now

/-- Let milliseconds pass. -/
def advance (milliseconds : Nat) (s : Session) : Session :=
  s.elapse (s.now + milliseconds) s.now

end Session
end PublishDesk
