import PublishDesk.Bus.Basic
import PublishDesk.Host.Job
import PublishDesk.Repository.Memory

/-!
# What the jobs of a host share

The working tree is held by one job at a time; the others wait for it in the order in which they
asked. Pushes may be held at gates. `Desk.step` is one step of a job, and `Desk.work` lets a job
run until it ends or has to wait.
-/

namespace PublishDesk

/-- The working tree: whether a job holds it, and which jobs wait for it, the next one first. -/
structure TreeLock where
  held : Bool := false
  waiting : List Nat := []
deriving DecidableEq, Repr

namespace TreeLock

/-- Take the tree if it is free, or wait for it. -/
def acquire (job : Nat) (l : TreeLock) : Bool × TreeLock :=
  if l.held then (false, { l with waiting := l.waiting ++ [job] })
  else (true, { l with held := true })

/-- Let go of the tree. It passes to the job that has waited longest. -/
def release (l : TreeLock) : Option Nat × TreeLock :=
  match l.waiting with
  | [] => (none, { l with held := false })
  | next :: rest => (some next, { l with waiting := rest })

/-- Wait no longer. -/
def leave (job : Nat) (l : TreeLock) : TreeLock :=
  { l with waiting := l.waiting.filter (· != job) }

end TreeLock

/-- A gate at which pushes wait. One push may be let pass before it comes. -/
structure Gate where
  permit : Bool := false
  waiting : List Nat := []
deriving DecidableEq, Repr

/-- The host: its bus, and what it remembers between jobs. The bus has a handler for the kinds of
messages that start jobs. -/
structure Host where
  bus : Bus Unit := .empty
  /-- Whether somebody besides the jobs holds on to the host. -/
  kept : Bool := true
  /-- Whether a job that answers a ping is under way. -/
  polling : Bool := false
  /-- The link that was answered last. -/
  lastLink : Option String := none

structure Desk where
  target : String
  repository : MemoryRepository
  /-- The gates of the pushes, the latest first. A push comes to the latest one, and waits there
  even if there is a newer one meanwhile. -/
  gates : List Gate := []
  /-- What a look-up of the open review gives. -/
  review : Except ReviewFailure (Option String) := .ok none
  lookups : Nat := 0
  lock : TreeLock := {}
  host : Host := {}
  worker : Option Supervisor := none

namespace Desk

/-- Whether there is a worker and it is up. -/
def workerUp (d : Desk) : Bool := d.worker.any Supervisor.isRunning

/-- Whether a call may be made now; a push may have to wait at the latest gate. -/
def letPass (job : Nat) (d : Desk) : RepositoryCall → Bool × Desk
  | .push _ _ => match d.gates with
    | [] => (true, d)
    | g :: older =>
      if g.permit then (true, { d with gates := { g with permit := false } :: older })
      else (false, { d with gates := { g with waiting := g.waiting ++ [job] } :: older })
  | _ => (true, d)

/-- Make a call. -/
def call (c : RepositoryCall) (d : Desk) : c.Answer × Desk :=
  let r := d.repository.answer c
  (r.1, { d with repository := r.2 })

/-- The link to answer with, given what a status read found: an unreadable branch changes
nothing. -/
def updateLink (s : RepositoryStatus) (d : Desk) : Option String × Desk :=
  let link := if s.branch.isSome then s.reviewLink else d.host.lastLink
  (link, { d with host := { d.host with lastLink := link } })

/-- What comes of one step of a job. -/
inductive Progress (A : Type) where
  /-- The job gets an answer and goes on. -/
  | answered (answer : A)
  /-- The job waits, and gets its answer when it is woken. -/
  | promised (answer : A)
  /-- The job waits, and asks again when it is woken. -/
  | held

/-- One step of a job: what comes of it, the desk after it, and the job that it wakes, if any.
`passed` says that a gate has let the step through. -/
def step (job : Nat) (passed : Bool) : (s : HostStep) → Desk →
    Progress s.Answer × Desk × Option Nat
  | .tree .acquire, d =>
    let (taken, lock) := d.lock.acquire job
    (if taken then .answered () else .promised (), { d with lock := lock }, none)
  | .tree .release, d =>
    let (woken, lock) := d.lock.release
    (.answered (), { d with lock := lock }, woken)
  | .tree (.repository c), d =>
    let (free, d) := if passed then (true, d) else d.letPass job c
    if free then (.answered (d.call c).1, (d.call c).2, none) else (.held, d, none)
  | .tree (.findReview _), d => (.answered d.review, { d with lookups := d.lookups + 1 }, none)
  | .workerUp, d => (.answered d.workerUp, d, none)
  | .worker, d => (.answered (d.worker.map Supervisor.snapshot), d, none)
  | .updateLink s, d => (.answered (d.updateLink s).1, (d.updateLink s).2, none)
  | .endPoll, d => (.answered (), { d with host := { d.host with polling := false } }, none)
  | .post m, d =>
    (.answered (), { d with host := { d.host with bus := d.host.bus.post m } }, none)

/-- What came of a run: the job ended, or the rest of it waits. -/
inductive Halt (α : Type) where
  | ended (result : α)
  | waiting (rest : Job α)

/-- What a run leaves: how it came to a halt, the desk, and the jobs that it woke. -/
structure Run (α : Type) where
  halt : Halt α
  desk : Desk
  woken : List Nat

/-- Let a job run. `passed` says that the step it stands at has been let through a gate. -/
def work {α : Type} (job : Nat) (passed : Bool) : Job α → Desk → Run α
  | .done a, d => ⟨.ended a, d, []⟩
  | .ask s next, d =>
    match d.step job passed s with
    | (.answered a, d, woken) =>
      let r := work job false (next a) d
      { r with woken := woken.toList ++ r.woken }
    | (.promised a, d, woken) => ⟨.waiting (next a), d, woken.toList⟩
    | (.held, d, woken) => ⟨.waiting (.ask s next), d, woken.toList⟩

end Desk
end PublishDesk
