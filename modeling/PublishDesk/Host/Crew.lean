import PublishDesk.Host.Desk

/-!
# Jobs that take turns

One job runs at a time, until it ends or has to wait; then the job runs that has been ready longest.
`Crew.settle` goes on until no job is ready.
-/

namespace PublishDesk

/-- A job that has not ended. `passed` says that a gate has let it through. -/
structure Task (α : Type) where
  number : Nat
  rest : Job α
  passed : Bool := false

/-- Jobs that share a desk. -/
structure Crew (α : Type) where
  desk : Desk
  /-- The jobs that have not ended, oldest first. -/
  tasks : List (Task α) := []
  /-- The jobs that can run, the next one first. -/
  ready : List Nat := []
  /-- The number of jobs started so far, and so the number of the next one. -/
  started : Nat := 0
  /-- The jobs that have ended, in the order of their ends, with their results. -/
  ended : List (Nat × α) := []

namespace Crew

variable {α β : Type}

/-- Start a job. It runs when its turn comes. -/
def start (job : Job α) (c : Crew α) : Crew α :=
  { c with
    tasks := c.tasks ++ [{ number := c.started, rest := job }]
    ready := c.ready ++ [c.started]
    started := c.started + 1 }

/-- Replace a task by what a run has left of it. -/
def record (number : Nat) (r : Desk.Run α) (c : Crew α) : Crew α :=
  let others := c.tasks.filter (·.number != number)
  match r.halt with
  | .ended a =>
    { c with desk := r.desk, tasks := others, ended := c.ended ++ [(number, a)] }
  | .waiting rest =>
    { c with
      desk := r.desk
      tasks := c.tasks.map fun t => if t.number = number then { t with rest := rest } else t }

/-- Let the first job that is ready run; none if there is no such job. -/
def turn? (c : Crew α) : Option (Crew α) :=
  match c.ready with
  | [] => none
  | number :: ready =>
    let c := { c with ready := ready }
    match c.tasks.find? (·.number == number) with
    | none => some c
    | some t =>
      let r := c.desk.work number t.passed t.rest
      some { c.record number r with ready := ready ++ r.woken }

/-- Take up to `fuel` turns. -/
def turns : (fuel : Nat) → Crew α → Crew α
  | 0, c => c
  | fuel + 1, c => match c.turn? with
    | none => c
    | some c => turns fuel c

/-- Take turns until no job is ready. A job waits at most twice, once for the working tree and once
at a gate, so it has at most three turns. -/
def settle (c : Crew α) : Crew α := c.turns (3 * c.tasks.length + c.ready.length)

/-- Run a job for an answer that is wanted at once. If it has to wait, it is given up. -/
def ask (job : Job β) (c : Crew α) : Option β × Crew α :=
  let r := c.desk.work c.started false job
  let c := { c with desk := r.desk, ready := c.ready ++ r.woken, started := c.started + 1 }
  match r.halt with
  | .ended b => (some b, c)
  | .waiting _ =>
    (none, { c with desk := { c.desk with lock := c.desk.lock.leave (c.started - 1) } })

/-! ## The gates of the pushes -/

/-- Let every push to come wait at a new gate. -/
def holdPushes (c : Crew α) : Crew α :=
  { c with desk := { c.desk with gates := {} :: c.desk.gates } }

/-- Let one push pass a gate: the one that has waited there longest, or else the next one to come.
The gates are counted from the latest. -/
def releasePush (gate : Nat) (c : Crew α) : Crew α :=
  match c.desk.gates[gate]? with
  | none => c
  | some g => match g.waiting with
    | [] =>
      { c with desk := { c.desk with gates := c.desk.gates.set gate { g with permit := true } } }
    | number :: waiting =>
      { c with
        desk := { c.desk with gates := c.desk.gates.set gate { g with waiting := waiting } }
        tasks := c.tasks.map fun t => if t.number = number then { t with passed := true } else t
        ready := c.ready ++ [number] }

/-- Change the repository from outside. -/
def update (f : MemoryRepository → MemoryRepository) (c : Crew α) : Crew α :=
  { c with desk := { c.desk with repository := f c.desk.repository } }

end Crew

/-! ## Saves and status reads on their own -/

/-- The result of a save or of a status read. -/
inductive Report where
  | save (outcome : SaveOutcome)
  | status (status : RepositoryStatus)
deriving DecidableEq, Repr

namespace Crew

def startSave (message : String) (c : Crew Report) : Crew Report :=
  c.start ((Job.ofWorkflow (Workflow.save c.desk.target message)).map .save)

def startStatus (c : Crew Report) : Crew Report :=
  c.start ((Job.ofWorkflow (Workflow.status c.desk.target)).map .status)

end Crew

/-! ## The host -/

/-- The jobs of a host. -/
abbrev HostCrew := Crew Unit

namespace HostCrew

/-- Change the host. -/
def setHost (h : Host) (c : HostCrew) : HostCrew := { c with desk := { c.desk with host := h } }

/-- Let the host take pings and save requests. -/
def attach (c : HostCrew) : HostCrew :=
  let h := c.desk.host
  setHost { h with bus := (h.bus.register .ping ()).register .requestSave () } c

/-- Whether the host is still there: somebody or one of its own jobs holds on to it. -/
def isAlive (c : HostCrew) : Bool := c.desk.host.kept || !c.tasks.isEmpty

/-- Take a message. A ping starts no job while another one is being answered. -/
def handle (m : Message) (c : HostCrew) : HostCrew :=
  match m with
  | .ping =>
    if c.desk.host.polling then c
    else setHost { c.desk.host with polling := true } c |>.start (Job.poll c.desk.target)
  | .requestSave message => c.start (Job.save c.desk.target message)
  | _ => c

/-- Take a frame from the view. Once the host is gone, messages are read but have no effect. -/
def dispatch (frame : String) (c : HostCrew) : Except BusError Kind × HostCrew :=
  match c.desk.host.bus.route frame with
  | .error e => (.error e, c)
  | .ok (k, _, m) => (.ok k, if m.kind = k ∧ c.isAlive then handle m c else c)

/-- Take frames one after the other, before any job runs. -/
def dispatchAll : List String → HostCrew → List (Except BusError Kind) × HostCrew
  | [], c => ([], c)
  | f :: fs, c =>
    let r := dispatch f c
    let rs := dispatchAll fs r.2
    (r.1 :: rs.1, rs.2)

/-- Read the status for an answer that is wanted at once. -/
def status (c : HostCrew) : Option HostStatus × HostCrew := c.ask (Job.status c.desk.target)

/-- Let go of the host. -/
def drop (c : HostCrew) : HostCrew := setHost { c.desk.host with kept := false } c

/-- Let go of the queue of frames to the view. -/
def detach (c : HostCrew) : HostCrew :=
  setHost { c.desk.host with bus := c.desk.host.bus.detach } c

/-- Take all frames that are queued for the view. -/
def drain (c : HostCrew) : List String × HostCrew :=
  let r := c.desk.host.bus.drain
  (r.1, setHost { c.desk.host with bus := r.2 } c)

end HostCrew
end PublishDesk
