import PublishDesk.Proofs.Host.Progress

/-!
# What surrounds a host

A status tells what the branch is, what the look-up of the open review gives, and whether the worker
is up. All of this may change at any time. `Surroundings.Told` says which answers a step may get at
one time, and `Surroundings.Tells` that the answers of some marks are such, with changes in between.
As long as nothing changes, all jobs that answer pings make the same steps
(`Surroundings.pollStep_of_leads`).
-/

namespace PublishDesk

/-- What a host would be told now. -/
structure Surroundings where
  branch : RepositoryCall.currentBranch.Answer
  review : Except ReviewFailure (Option String)
  worker : Option Supervisor

/-- The link that is answered after a status read: an unreadable branch changes nothing. -/
def RepositoryStatus.linkAfter (status : RepositoryStatus) (last : Option String) :
    Option String := if status.branch.isSome then status.reviewLink else last

/-- The link that has been answered last, given the one before. -/
def Mark.link (last : Option String) : Mark → Option String
  | .met ⟨.updateLink _, link⟩ => link
  | _ => last

/-- The link of the last status that has been answered; none if none has been. -/
def Mark.lastLink (log : List (Nat × Mark)) : Option String := (log.map (·.2)).foldl Mark.link none

theorem Mark.lastLink_append (log marks : List (Nat × Mark)) : Mark.lastLink (log ++ marks) =
    (marks.map (·.2)).foldl Mark.link (Mark.lastLink log) := by
  rw [lastLink, List.map_append, List.foldl_append]
  rfl

namespace Surroundings

def workerUp (s : Surroundings) : Bool := s.worker.any Supervisor.isRunning

/-- Whether a step may get its answer now. -/
def Told (s : Surroundings) (last : Option String) : Mark → Prop
  | .met ⟨.workerUp, up⟩ => up = s.workerUp
  | .met ⟨.tree (.repository .currentBranch), branch⟩ => branch = s.branch
  | .met ⟨.tree (.findReview _), review⟩ => review = s.review
  | .met ⟨.updateLink status, link⟩ => link = status.linkAfter last
  | _ => True

/-- Each step gets an answer that it may get at some time. The links are those before and after. -/
inductive Tells : Option String → List Mark → Option String → Prop
  | nil {last : Option String} : Tells last [] last
  | cons {last last' : Option String} {m : Mark} {marks : List Mark} (s : Surroundings)
    (h : s.Told last m) : Tells (m.link last) marks last' → Tells last (m :: marks) last'

theorem Tells.single (s : Surroundings) {last : Option String} {m : Mark} (h : s.Told last m) :
    Tells last [m] (m.link last) := .cons s h .nil

theorem Tells.trans {last last' last'' : Option String} {marks marks' : List Mark}
    (h : Tells last marks last') (h' : Tells last' marks' last'') :
    Tells last (marks ++ marks') last'' := by
  induction h with
  | nil => exact h'
  | cons s hm _ ih => exact .cons s hm (ih h')

theorem Tells.eq_foldl {last last' : Option String} {marks : List Mark}
    (h : Tells last marks last') : last' = marks.foldl Mark.link last := by
  induction h with
  | nil => rfl
  | cons s hm _ ih => exact ih

theorem Tells.of_concat {last last' : Option String} {m : Mark} {marks : List Mark}
    (h : Tells last (marks ++ [m]) last') :
    ∃ s : Surroundings, Tells last marks (marks.foldl Mark.link last) ∧
      s.Told (marks.foldl Mark.link last) m := by
  induction marks generalizing last with
  | nil =>
    cases h with
    | cons s hm _ => exact ⟨s, .nil, hm⟩
  | cons n marks ih =>
    cases h with
    | cons s hn hrest =>
      obtain ⟨t, hmarks, hm⟩ := ih hrest
      exact ⟨t, .cons s hn hmarks, hm⟩

/-! ## What a ping finds -/

variable (s : Surroundings) (target : String) (last last' : Option String)

/-- The link to answer with. -/
def link : Option String :=
  match s.branch with
  | .error _ => last
  | .ok name => if name = target then s.review.toOption.join else none

/-- What a status read finds. -/
def status : RepositoryStatus :=
  match s.branch with
  | .error _ => {}
  | .ok name => ⟨some (BranchState.observe name target), s.link target none⟩

/-- What a ping is answered with. -/
def report : HostStatus := ⟨s.workerUp, s.link target last⟩

def answer : (q : HostStep) → q.Answer
  | .workerUp => s.workerUp
  | .tree (.repository .currentBranch) => s.branch
  | .tree (.findReview _) => s.review
  | .updateLink status => status.linkAfter last
  | q => q.plainAnswer

/-- The steps of a job that answers a ping. -/
inductive PollStep : HostStep → Prop
  | workerUp : PollStep .workerUp
  | acquire : PollStep (.tree .acquire)
  | currentBranch : PollStep (.tree (.repository .currentBranch))
  | release : PollStep (.tree .release)
  | findReview : PollStep (.tree (.findReview target))
  | updateLink : PollStep (.updateLink (s.status target))
  | endPoll : PollStep .endPoll
  | post : PollStep (.post (.pong (s.report target last)))

/-- The steps of a job that answers a ping, in order. -/
def pollSteps : List HostStep :=
  [.workerUp, .tree .acquire, .tree (.repository .currentBranch), .tree .release] ++
    (if s.branch = .ok target then [.tree (.findReview target)] else []) ++
    [.updateLink (s.status target), .endPoll, .post (.pong (s.report target last))]

variable {s target last last'}

theorem linkAfter_status : (s.status target).linkAfter last = s.link target last := by
  unfold status link
  cases s.branch <;> rfl

theorem link_link : s.link target (s.link target last) = s.link target last := by
  unfold link
  cases s.branch <;> rfl

theorem transcriptBy_poll : (Job.poll target).transcriptBy (s.answer last) =
    (s.pollSteps target last).map fun q => ⟨q, s.answer last q⟩ := by
  obtain ⟨branch, review, worker⟩ := s
  cases branch with
  | error reason => rfl
  | ok name =>
    by_cases h : name = target <;>
      simp [Job.poll, Job.status, Workflow.status, Job.ofWorkflow, Program.bind, Program.expand,
        Program.question, Program.transcriptBy, Program.transcript, pollSteps, answer, link, status,
        report, RepositoryStatus.linkAfter, h]

variable {q : HostStep}

theorem PollStep.of_mem (hq : q ∈ s.pollSteps target last) : s.PollStep target last q := by
  unfold pollSteps at hq
  split at hq <;> simp at hq <;> rcases hq with rfl | rfl | rfl | rfl | rfl | rfl | rfl | rfl <;>
    constructor

/-- A job that answers a ping, and has been told how things are, makes one of its steps next. -/
theorem pollStep_of_leads {l : List (Exchange HostStep HostStep.Answer)}
    {next : q.Answer → Job Unit}
    (h : (Job.poll target).Leads l (.ask q next)) (hl : ∀ e ∈ l, e.2 = s.answer last e.1) :
    s.PollStep target last q := by
  have hsteps := h.transcriptBy hl
  rw [transcriptBy_poll] at hsteps
  have hmem : (⟨q, s.answer last q⟩ : Exchange HostStep HostStep.Answer) ∈
      (s.pollSteps target last).map fun q => ⟨q, s.answer last q⟩ := by
    rw [hsteps]
    exact List.mem_append_right _ (.head _)
  obtain ⟨q', hq', heq⟩ := List.mem_map.1 hmem
  obtain rfl : q' = q := congrArg Sigma.fst heq
  exact .of_mem hq'

theorem PollStep.told_iff (hq : s.PollStep target last q)
    (hlast : s.link target last' = s.link target last) {a : q.Answer} :
    s.Told last' (.met ⟨q, a⟩) ↔ a = s.answer last q := by
  cases hq with
  | workerUp | currentBranch | findReview => exact Iff.rfl
  | acquire | release | endPoll | post => exact ⟨fun _ => rfl, fun _ => trivial⟩
  | updateLink =>
    have hlink : (s.status target).linkAfter last' = (s.status target).linkAfter last := by
      rw [linkAfter_status, linkAfter_status, hlast]
    exact Iff.of_eq (congrArg (a = ·) hlink)

/-- The link that is remembered stays one that makes no difference. -/
theorem PollStep.link_after (hq : s.PollStep target last q)
    (hlast : s.link target last' = s.link target last) :
    s.link target ((Mark.met ⟨q, s.answer last q⟩).link last') = s.link target last := by
  cases hq with
  | updateLink => exact (congrArg _ linkAfter_status).trans link_link
  | workerUp | acquire | currentBranch | release | findReview | endPoll | post => exact hlast

end Surroundings

namespace Desk

def surroundings (d : Desk) : Surroundings where
  branch := (d.repository.answer .currentBranch).1
  review := d.review
  worker := d.worker

open Surroundings (Tells)

variable {d d' : Desk}

theorem told_call (c : RepositoryCall) (d : Desk) (last : Option String) :
    d.surroundings.Told last (.met ⟨.tree (.repository c), (d.call c).1⟩) := by
  cases c with
  | currentBranch => rfl
  | branches | checkout | checkoutNew | commit | push => trivial

theorem tells_call (c : RepositoryCall) (d : Desk) : Tells d.host.lastLink
    [.began c, .met ⟨.tree (.repository c), (d.call c).1⟩] d.host.lastLink :=
  .cons d.surroundings trivial (.cons d.surroundings (told_call c d _) .nil)

end Desk
end PublishDesk
