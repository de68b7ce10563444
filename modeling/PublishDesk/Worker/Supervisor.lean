import PublishDesk.Command.Basic
import PublishDesk.Path

/-!
# Supervision of the worker

The supervisor keeps one worker running until it is cancelled. A monitor, of which there is at most
one, spawns the worker, waits for its end, and spawns it again. A worker that cannot be spawned
ends the supervision, since the next attempt would fail the same way.

What the monitor does is cut into steps, so that a start, a cancellation or the end of the worker
may come between any two of them. `Supervisor.monitor` is one step.
-/

namespace PublishDesk

inductive WorkerStatus where
  | starting
  | running
  | stopped
  | terminating
deriving DecidableEq, Repr

def WorkerStatus.label : WorkerStatus → String
  | .starting => "starting"
  | .running => "running"
  | .stopped => "stopped"
  | .terminating => "terminating"

/-- What happens to workers. -/
inductive WorkerEvent where
  | spawned (pid : Nat)
  | exited (status : ExitStatus)
  | spawnFailed (failure : StartFailure)
deriving DecidableEq, Repr

/-- A worker that has been spawned and not been reaped. It has ended if it has a status. -/
structure Child where
  pid : Nat
  exit : Option ExitStatus := none
deriving DecidableEq, Repr

/-- What the monitor does next. -/
inductive MonitorPhase where
  /-- There is no monitor yet. -/
  | absent
  /-- Report that the worker is starting. -/
  | entering
  /-- Spawn a worker, unless cancelled. -/
  | spawning
  /-- Report that there is no worker, because of a cancellation. -/
  | declined
  /-- Report that no worker can be spawned. -/
  | failed (failure : StartFailure)
  /-- Report that the worker is running. -/
  | spawned (pid : Nat)
  /-- Tell of the new worker. -/
  | announcing (pid : Nat)
  /-- Wait for a cancellation or for the end of the worker. -/
  | waiting (pid : Nat)
  /-- Kill the worker. -/
  | killing
  /-- Wait until the killed worker has ended. -/
  | reaping
  /-- Report that the killed worker is gone. -/
  | reaped
  /-- Decide what follows the end of a worker that was not killed. -/
  | exited
  /-- Settle. -/
  | settling
  | settled
deriving DecidableEq, Repr

structure Supervisor where
  command : List String
  directory : Path
  cancelled : Bool := false
  started : Bool := false
  spawnFailed : Bool := false
  status : WorkerStatus := .stopped
  pid : Option Nat := none
  /-- How often the worker has been replaced after its end. -/
  restarts : Nat := 0
  /-- How often spawning a worker has been attempted. -/
  spawns : Nat := 0
  phase : MonitorPhase := .absent
  child : Option Child := none
  events : List WorkerEvent := []
deriving DecidableEq, Repr

/-- What is shown of a worker. -/
structure WorkerSnapshot where
  command : List String
  directory : Path
  status : WorkerStatus
  restarts : Nat
  pid : Option Nat
deriving DecidableEq, Repr

namespace Supervisor

def snapshot (s : Supervisor) : WorkerSnapshot :=
  ⟨s.command, s.directory, s.status, s.restarts, s.pid⟩

def isRunning (s : Supervisor) : Bool := s.status == .running

/-- Whether the monitor has nothing left to do. -/
def isSettled (s : Supervisor) : Bool := s.phase == .settled

/-- Begin to supervise. Only the first call does anything, and none after a cancellation. -/
def start (s : Supervisor) : Supervisor :=
  if s.started || s.spawnFailed || s.cancelled then s
  else { s with started := true, status := .starting, phase := .entering }

/-- Ask the monitor to end. -/
def cancel (s : Supervisor) : Supervisor := { s with cancelled := true }

/-- What a call to stop does after it has cancelled. -/
def finishStop (s : Supervisor) : Supervisor :=
  if s.started then s else { s with status := .stopped }

/-- The worker ends on its own. -/
def childExits (exit : ExitStatus) (s : Supervisor) : Supervisor :=
  { s with child := s.child.map fun c => { c with exit := some (c.exit.getD exit) } }

/-- Show a status. -/
def mark (status : WorkerStatus) (pid : Option Nat) (s : Supervisor) : Supervisor :=
  { s with status := status, pid := pid }

def emit (e : WorkerEvent) (s : Supervisor) : Supervisor := { s with events := s.events ++ [e] }

def goTo (phase : MonitorPhase) (s : Supervisor) : Supervisor := { s with phase := phase }

/-- One step of the monitor, if it has one to do. An attempt to spawn the worker has the given
result. -/
def monitor (spawn : Except StartFailure Nat) (s : Supervisor) : Option Supervisor :=
  match s.phase with
  | .absent | .settled => none
  | .entering => some ((s.mark .starting none).goTo .spawning)
  | .spawning =>
    if s.cancelled then some (s.goTo .declined)
    else if s.command.isEmpty then some (s.goTo (.failed .emptyCommand))
    else
      let s := { s with spawns := s.spawns + 1 }
      match spawn with
      | .error e => some (s.goTo (.failed e))
      | .ok pid => some ({ s with child := some { pid := pid } }.goTo (.spawned pid))
  | .declined => some ((s.mark .stopped none).goTo .settling)
  | .failed e =>
    some (({ s with spawnFailed := true }.mark .stopped none).emit (.spawnFailed e)
      |>.goTo .settling)
  | .spawned pid => some ((s.mark .running (some pid)).goTo (.announcing pid))
  | .announcing pid => some ((s.emit (.spawned pid)).goTo (.waiting pid))
  | .waiting pid =>
    if s.cancelled then some ((s.mark .terminating (some pid)).goTo .killing)
    else match s.child with
      | some ⟨_, some exit⟩ => some (({ s with child := none }.emit (.exited exit)).goTo .exited)
      | _ => none
  | .killing => some ((s.childExits .signal).goTo .reaping)
  | .reaping => match s.child with
    | some ⟨_, some exit⟩ => some (({ s with child := none }.emit (.exited exit)).goTo .reaped)
    | _ => none
  | .reaped => some ((s.mark .stopped none).goTo .settling)
  | .exited =>
    if s.cancelled then some ((s.mark .stopped none).goTo .settling)
    else some ({ s with restarts := s.restarts + 1 }.goTo .entering)
  | .settling => some ((s.mark .stopped none).goTo .settled)

/-- The supervisor of the worker for a site. -/
def forSite (command : List String) (siteConfig : Path) : Supervisor :=
  { command := command, directory := workerDirectory siteConfig }

end Supervisor
end PublishDesk
