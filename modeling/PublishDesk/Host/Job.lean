import PublishDesk.Save.Workflow
import PublishDesk.Worker.Supervisor

/-!
# Jobs of the host

The host answers a ping with its status and a save request with how the save ended. Both take time,
so each is a job of its own. The status says whether the worker is up, as of the beginning of the
read, and where the open review is; if the branch cannot be read, the link that was answered last
stays.
-/

namespace PublishDesk

/-- What a job asks of the host. -/
inductive HostStep where
  | tree (step : TreeStep)
  /-- Whether the worker is up. -/
  | workerUp
  /-- What is to be shown of the worker, if there is one. -/
  | worker
  /-- Bring the link that is answered up to date, and return it. -/
  | updateLink (status : RepositoryStatus)
  /-- Let the next ping start a job again. -/
  | endPoll
  /-- Post a message to the view. -/
  | post (message : Message)
deriving DecidableEq, Repr

/-- The answer to a step. -/
@[reducible] def HostStep.Answer : HostStep → Type
  | .tree s => s.Answer
  | .workerUp => Bool
  | .worker => Option WorkerSnapshot
  | .updateLink _ => Option String
  | .endPoll | .post _ => Unit

/-- A status with the details of the worker, if there is one. -/
structure StatusReport where
  status : HostStatus
  worker : Option WorkerSnapshot
deriving DecidableEq, Repr

abbrev Job := Program HostStep HostStep.Answer

namespace Job

/-- A workflow as a job. -/
def ofWorkflow {α : Type} (w : Workflow α) : Job α :=
  w.expand fun s => Program.question (HostStep.tree s)

/-- Read the status. -/
def status (target : String) : Job HostStatus :=
  .ask .workerUp fun up =>
  (ofWorkflow (Workflow.status target)).bind fun s =>
  .ask (.updateLink s) fun link => .done ⟨up, link⟩

/-- Answer a ping. -/
def poll (target : String) : Job Unit :=
  (status target).bind fun s =>
  .ask .endPoll fun () =>
  .ask (.post (.pong s)) fun () => .done ()

/-- Carry out a save request, and answer it. -/
def save (target message : String) : Job Unit :=
  (ofWorkflow (Workflow.save target message)).bind fun outcome =>
  .ask (.post (.saveResult outcome.ok)) fun () => .done ()

/-- Read the status, and then the details of the worker. -/
def report (target : String) : Job StatusReport :=
  (status target).bind fun s =>
  .ask .worker fun w => .done ⟨s, w⟩

end Job
end PublishDesk
