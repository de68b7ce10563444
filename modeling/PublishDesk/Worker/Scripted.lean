import PublishDesk.Worker.Environment
import PublishDesk.Worker.Output
import PublishDesk.Worker.Supervisor

/-!
# Scripted workers

Workers with prepared runs: each worker that is spawned takes the next run, writes its output and
ends. When the runs are used up, the next worker stays until it is killed.
-/

namespace PublishDesk

structure ScriptedWorker where
  supervisor : Supervisor
  environment : Environment
  /-- The runs to come. -/
  runs : List Finished := []
  /-- The lines passed on so far. -/
  output : List (List Char) := []
  errors : List (List Char) := []

namespace ScriptedWorker

/-- What an attempt to spawn the worker gives. -/
def spawnResult (w : ScriptedWorker) : Except StartFailure Nat :=
  match w.environment.obstacle? w.supervisor.directory w.supervisor.command with
  | some e => .error e
  | none => .ok (w.supervisor.spawns + 1)

/-- Let a worker that has just been spawned go through its run. -/
def play (w : ScriptedWorker) : ScriptedWorker :=
  match w.supervisor.phase, w.runs with
  | .spawned _, run :: runs =>
    { w with
      supervisor := w.supervisor.childExits run.status
      runs := runs
      output := w.output ++ Worker.forwardedLines run.output
      errors := w.errors ++ Worker.forwardedLines run.errors }
  | _, _ => w

/-- Take up to `fuel` steps of the monitor. -/
def steps : (fuel : Nat) → ScriptedWorker → ScriptedWorker
  | 0, w => w
  | fuel + 1, w => match w.supervisor.monitor w.spawnResult with
    | none => w
    | some s => steps fuel (play { w with supervisor := s })

/-- Let the monitor work until it has to wait. A run takes six steps, and the end of the monitor
fewer than eight more. -/
def settle (w : ScriptedWorker) : ScriptedWorker := w.steps (6 * w.runs.length + 14)

def start (w : ScriptedWorker) : ScriptedWorker := { w with supervisor := w.supervisor.start }

/-- Cancel; the result says whether that was the first time. -/
def cancel (w : ScriptedWorker) : Bool × ScriptedWorker :=
  (!w.supervisor.cancelled, { w with supervisor := w.supervisor.cancel })

/-- Cancel, and wait until the monitor has settled. -/
def stop (w : ScriptedWorker) : ScriptedWorker :=
  let w := settle { w with supervisor := w.supervisor.cancel }
  { w with supervisor := w.supervisor.finishStop }

end ScriptedWorker
end PublishDesk
