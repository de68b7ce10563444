import PublishDesk.Host.Crew
import PublishDesk.Proofs.Program.Transcript

/-!
# How jobs use the working tree

A job uses the working tree at most once: it asks for it, makes its calls to the repository, and
lets go of it again. `Job.Keeps` says so of a job that has not asked yet, of one that holds the
tree, and of one that has let go of it. Saves and status reads keep to this (`Job.keeps_save`,
`Job.keeps_status`), and so do all jobs of the host, since they only go on from there.
-/

namespace PublishDesk

/-- How a job stands to the working tree. -/
inductive Hold where
  | before
  | inside
  | after
deriving DecidableEq, Repr

/-- Whether a step has nothing to do with the working tree. -/
def HostStep.isAside : HostStep → Bool
  | .tree (.findReview _) => true
  | .tree _ => false
  | _ => true

namespace Job

variable {α β : Type}

/-- The job asks for the working tree at most once, makes calls to the repository only while it
holds the tree, and does not end before it has let go of it. -/
inductive Keeps : Hold → Job α → Prop
  | done {h : Hold} (hh : h ≠ .inside) (a : α) : Keeps h (.done a)
  | acquire {next : Unit → Job α} :
    Keeps .inside (next ()) → Keeps .before (.ask (.tree .acquire) next)
  | call {r : RepositoryCall} {next : r.Answer → Job α} :
    (∀ a, Keeps .inside (next a)) → Keeps .inside (.ask (.tree (.repository r)) next)
  | release {next : Unit → Job α} :
    Keeps .after (next ()) → Keeps .inside (.ask (.tree .release) next)
  | aside {h : Hold} {s : HostStep} {next : s.Answer → Job α} (hh : h ≠ .inside) (hs : s.isAside) :
    (∀ a, Keeps h (next a)) → Keeps h (.ask s next)

theorem Keeps.of_acquire {h : Hold} {next : Unit → Job α}
    (H : Keeps h (.ask (.tree .acquire) next)) : h = .before ∧ Keeps .inside (next ()) := by
  cases H with
  | acquire H => exact ⟨rfl, H⟩
  | aside _ hs _ => cases hs

theorem Keeps.of_release {h : Hold} {next : Unit → Job α}
    (H : Keeps h (.ask (.tree .release) next)) : h = .inside ∧ Keeps .after (next ()) := by
  cases H with
  | release H => exact ⟨rfl, H⟩
  | aside _ hs _ => cases hs

theorem Keeps.of_call {h : Hold} {r : RepositoryCall} {next : r.Answer → Job α}
    (H : Keeps h (.ask (.tree (.repository r)) next)) :
    h = .inside ∧ ∀ a, Keeps .inside (next a) := by
  cases H with
  | call H => exact ⟨rfl, H⟩
  | aside _ hs _ => cases hs

theorem Keeps.of_aside {h : Hold} {s : HostStep} {next : s.Answer → Job α} (hs : s.isAside)
    (H : Keeps h (.ask s next)) : h ≠ .inside ∧ ∀ a, Keeps h (next a) := by
  cases H with
  | aside hh _ H => exact ⟨hh, H⟩
  | acquire | call | release => cases hs

theorem Keeps.of_done {h : Hold} {a : α} (H : Keeps h (.done a)) : h ≠ .inside := by
  cases H with
  | done hh _ => exact hh

/-- A job that goes on without the working tree keeps to the rule. -/
theorem Keeps.bind {h : Hold} {p : Job α} {k : α → Job β} (H : Keeps h p)
    (hk : ∀ h', h' ≠ .inside → ∀ a, Keeps h' (k a)) : Keeps h (p.bind k) := by
  induction H with
  | done hh a => exact hk _ hh a
  | acquire _ ih => exact .acquire ih
  | call _ ih => exact .call ih
  | release _ ih => exact .release ih
  | aside hh hs _ ih => exact .aside hh hs ih

theorem Keeps.map {h : Hold} {p : Job α} (H : Keeps h p) (f : α → β) : Keeps h (p.map f) := by
  induction H with
  | done hh a => exact .done hh (f a)
  | acquire _ ih => exact .acquire ih
  | call _ ih => exact .call ih
  | release _ ih => exact .release ih
  | aside hh hs _ ih => exact .aside hh hs ih

end Job

/-! ## Saves and status reads -/

namespace Workflow

variable {α β : Type}

/-- The workflow does nothing but make calls to the repository. -/
inductive OnlyCalls : Workflow α → Prop
  | done (a : α) : OnlyCalls (.done a)
  | call {r : RepositoryCall} {next : r.Answer → Workflow α} :
    (∀ a, OnlyCalls (next a)) → OnlyCalls (.ask (.repository r) next)

theorem OnlyCalls.keeps {w : Workflow α} (H : OnlyCalls w) {k : α → Workflow β}
    (hk : ∀ a, Job.Keeps .inside (Job.ofWorkflow (k a))) :
    Job.Keeps .inside (Job.ofWorkflow (w.bind k)) := by
  induction H with
  | done a => exact hk a
  | call _ ih => exact .call ih

theorem onlyCalls_commit (target message : String) : OnlyCalls (commit target message) := by
  refine .call fun
    | .error _ => .done _
    | .ok .nothingToCommit => .done _
    | .ok .committed => .call fun
      | .ok () => .done _
      | .error _ => .done _

theorem onlyCalls_confirm (target : String) {next : Workflow SaveOutcome} (H : OnlyCalls next) :
    OnlyCalls (confirm target next) := by
  refine .call fun
    | .error _ => .done _
    | .ok name => ?_
  simp only
  split
  · exact H
  · exact .done _

theorem onlyCalls_switch (target : String) {next : Workflow SaveOutcome} (H : OnlyCalls next) :
    OnlyCalls (switch target next) := by
  refine .call fun
    | .error _ => .done _
    | .ok names => ?_
  simp only
  split <;>
  · refine .call fun
      | .ok () => onlyCalls_confirm target H
      | .error _ => .done _

theorem onlyCalls_publish (target message : String) : OnlyCalls (publish target message) := by
  refine .call fun
    | .error _ => onlyCalls_switch target (onlyCalls_commit target message)
    | .ok name => ?_
  simp only
  split
  · exact onlyCalls_commit target message
  · exact onlyCalls_switch target (onlyCalls_commit target message)

end Workflow

namespace Job

theorem keeps_save (target message : String) :
    Keeps .before (ofWorkflow (Workflow.save target message)) := by
  unfold Workflow.save
  split
  · exact .done (by decide) _
  · refine .acquire ((Workflow.onlyCalls_publish target message).keeps fun o => ?_)
    exact .release (.done (by decide) _)

theorem keeps_status (target : String) :
    Keeps .before (ofWorkflow (Workflow.status target)) := by
  refine .acquire (.call fun current => .release ?_)
  cases current with
  | error _ => exact .done (by decide) _
  | ok name =>
    simp only
    split
    · exact .aside (by decide) rfl fun _ => .done (by decide) _
    · exact .done (by decide) _

end Job
end PublishDesk
