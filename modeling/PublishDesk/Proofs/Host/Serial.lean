import Mathlib.Data.List.Nodup
import PublishDesk.Proofs.Host.Progress
import PublishDesk.Proofs.Save.Rules

/-!
# Saves and status reads side by side

However many saves and status reads share a working tree, and however their steps are mixed, their
calls to the repository are not: the calls come in blocks, one for each operation that has asked for
the tree, in the order of asking (`Reconciliation.serialized`). A block holds all the calls of a
save, or the one call of a status read.
-/

namespace PublishDesk

variable {α : Type}

/-- If some elements of a list are next to each other and the others are not like them, then all
that lies between two elements like them is one of them. -/
theorem mem_of_between {P : α → Prop} {A F B pre mid post : List α} {x y : α}
    (hF : ∀ e ∈ F, P e) (hA : ∀ e ∈ A, ¬ P e) (hB : ∀ e ∈ B, ¬ P e) (hx : P x) (hy : P y)
    (h : A ++ (F ++ B) = pre ++ x :: mid ++ y :: post) : ∀ e ∈ mid, P e := by
  induction A generalizing pre with
  | nil =>
    rw [List.nil_append] at h
    obtain ⟨as, -, hB'⟩ | ⟨as, hF', -⟩ := List.append_eq_append_iff.1 h
    · exact absurd hy (hB y (by simp [hB']))
    · exact fun e he => hF e (by simp [hF', he])
  | cons a A ih =>
    cases pre with
    | nil => exact absurd ((List.cons.inj h).1 ▸ hx) (hA a List.mem_cons_self)
    | cons b pre => exact ih (fun e he => hA e (List.mem_cons_of_mem _ he)) (List.cons.inj h).2

/-! ## The calls of one job -/

namespace Job

def callsOf (l : List (Exchange HostStep HostStep.Answer)) : List CallRecord :=
  l.filterMap fun
    | ⟨.tree (.repository c), a⟩ => some ⟨c, a⟩
    | _ => none

theorem callsOf_append (l l' : List (Exchange HostStep HostStep.Answer)) :
    callsOf (l ++ l') = callsOf l ++ callsOf l' := List.filterMap_append

theorem callsOf_ofWorkflow (l : List (Exchange TreeStep TreeStep.Answer)) :
    callsOf (l.map fun e => ⟨.tree e.1, e.2⟩) = PublishDesk.callsOf l := by
  rw [callsOf, List.filterMap_map, PublishDesk.callsOf]
  refine List.filterMap_congr fun e _ => ?_
  obtain ⟨_ | _ | _ | _, _⟩ := e <;> rfl

theorem transcript_ofWorkflow_iff {w : Workflow α} {l : List (Exchange HostStep HostStep.Answer)}
    {a : α} :
    (ofWorkflow w).Transcript l a ↔ ∃ l', l = l'.map (fun e => ⟨.tree e.1, e.2⟩) ∧
      w.Transcript l' a :=
  Program.transcript_expand_question_iff

end Job

def CallRecord.marks (r : CallRecord) : List Mark :=
  [.began r.1, .met ⟨.tree (.repository r.1), r.2⟩]

/-- What is noted of a call that has no answer yet. -/
def Standing.pending : Standing α → List Mark
  | .calling c _ => [.began c]
  | _ => []

theorem Standing.pending_wake (s : Standing α) : s.wake.pending = s.pending := by cases s <;> rfl

theorem Mark.stepsOf_append (l l' : List Mark) :
    stepsOf (l ++ l') = stepsOf l ++ stepsOf l' := List.filterMap_append

/-- A step that is no call to the repository leaves the calls as they are. -/
theorem Mark.calls_met {s : HostStep} (hs : ∀ r, s ≠ .tree (.repository r)) (a : s.Answer) :
    [Mark.met ⟨s, a⟩].filter Mark.isCall = [] ∧ Job.callsOf (stepsOf [.met ⟨s, a⟩]) = [] := by
  obtain ⟨_ | _ | r | _⟩ | _ | _ | _ | _ | _ := s
  case repository => exact absurd rfl (hs r)
  all_goals exact ⟨rfl, rfl⟩

/-- Calls are made one after the other: each has its answer before the next one begins. -/
theorem Job.History.calls {p : Job α} {l : List Mark} {s : Standing α} (h : p.History l s) :
    l.filter Mark.isCall =
      (Job.callsOf (Mark.stepsOf l)).flatMap CallRecord.marks ++ s.pending := by
  induction h with
  | start => rfl
  | @note l m s s' _ hadv ih =>
    rw [List.filter_append, ih, Mark.stepsOf_append, Job.callsOf_append, List.flatMap_append]
    cases hadv with
    | began => simp [Standing.pending, Mark.isCall, Mark.stepsOf, Job.callsOf]
    | returned a =>
      simp [Standing.pending, Mark.isCall, Mark.stepsOf, Job.callsOf, CallRecord.marks]
    | queued => simp [Standing.pending, Mark.isCall, Mark.stepsOf, Job.callsOf]
    | met hs a => simp [Standing.pending, Mark.calls_met hs a]
  | wake _ ih => rwa [Standing.pending_wake]

/-! ## Operations -/

/-- What may be asked of a working tree that is shared. -/
inductive Operation where
  | save (message : String)
  | status
deriving DecidableEq, Repr

namespace Operation

def job (target : String) : Operation → Job Report
  | .save message => (Job.ofWorkflow (Workflow.save target message)).map .save
  | .status => (Job.ofWorkflow (Workflow.status target)).map .status

/-- A crew starts operations as these jobs. -/
theorem startSave_eq (message : String) (c : Crew Report) :
    c.startSave message = c.start ((save message).job c.desk.target) := rfl

theorem startStatus_eq (c : Crew Report) :
    c.startStatus = c.start (status.job c.desk.target) := rfl

theorem keeps_job (target : String) (op : Operation) : (op.job target).Keeps .before := by
  cases op with
  | save message => exact (Job.keeps_save target message).map _
  | status => exact (Job.keeps_status target).map _

/-- All the calls of an operation, with its report. -/
inductive Calls (target : String) : Operation → List CallRecord → Report → Prop
  | blank {message : String} (h : isBlankMessage message) :
    Calls target (.save message) [] (.save (.failed .emptyMessage))
  | save {message : String} {calls : List CallRecord} {o : SaveOutcome}
    (h : ¬ isBlankMessage message) :
    Workflow.Published target message calls o → Calls target (.save message) calls (.save o)
  | unreadable (reason : String) :
    Calls target .status [⟨.currentBranch, .error reason⟩] (.status {})
  | read {name : String} {link : Option String} (h : link.isSome → name = target) :
    Calls target .status [⟨.currentBranch, .ok name⟩]
      (.status ⟨some (BranchState.observe name target), link⟩)

end Operation

namespace Workflow

variable {target message : String} {l : List (Exchange TreeStep TreeStep.Answer)}

theorem calls_of_transcript_save {o : SaveOutcome} (h : (save target message).Transcript l o) :
    Operation.Calls target (.save message) (callsOf l) (.save o) := by
  rw [transcript_save_iff] at h
  split at h
  · next hmessage =>
    obtain ⟨rfl, rfl⟩ := h
    exact .blank hmessage
  · next hmessage =>
    obtain ⟨calls, h, rfl⟩ := h
    rw [callsOf_held]
    exact .save hmessage h

theorem calls_of_transcript_status {s : RepositoryStatus} (h : (status target).Transcript l s) :
    Operation.Calls target .status (callsOf l) (.status s) := by
  simp only [status, Program.transcript_ask_iff] at h
  obtain ⟨⟨⟩, _, rfl, reason | name, _, rfl, ⟨⟩, l', rfl, h⟩ := h
  · obtain ⟨rfl, rfl⟩ := Program.transcript_done_iff.1 h
    exact .unreadable reason
  · simp only at h
    split at h
    · next hname =>
      obtain ⟨a, _, rfl, hdone⟩ := Program.transcript_ask_iff.1 h
      obtain ⟨rfl, rfl⟩ := Program.transcript_done_iff.1 hdone
      exact .read fun _ => hname
    · obtain ⟨rfl, rfl⟩ := Program.transcript_done_iff.1 h
      exact .read nofun

end Workflow

theorem Operation.calls_of_transcript {target : String} {op : Operation}
    {l : List (Exchange HostStep HostStep.Answer)} {r : Report}
    (h : (op.job target).Transcript l r) : op.Calls target (Job.callsOf l) r := by
  cases op with
  | save message =>
    obtain ⟨o, rfl, hjob⟩ := Program.transcript_map_iff.1 h
    obtain ⟨l, rfl, hsave⟩ := Job.transcript_ofWorkflow_iff.1 hjob
    rw [Job.callsOf_ofWorkflow]
    exact Workflow.calls_of_transcript_save hsave
  | status =>
    obtain ⟨s, rfl, hjob⟩ := Program.transcript_map_iff.1 h
    obtain ⟨l, rfl, hstatus⟩ := Job.transcript_ofWorkflow_iff.1 hjob
    rw [Job.callsOf_ofWorkflow]
    exact Workflow.calls_of_transcript_status hstatus

/-- What an operation has called so far is the beginning of all its calls: it can come to an end
from where it stands. -/
theorem Operation.begun {target : String} {op : Operation} {l : List Mark} {s : Standing Report}
    (h : (op.job target).History l s) :
    ∃ calls r, op.Calls target calls r ∧
      l.filter Mark.isCall <+: calls.flatMap CallRecord.marks := by
  obtain ⟨l', r, h'⟩ := Program.exists_transcript s.rest
  refine ⟨_, r, Operation.calls_of_transcript (h.leads.transcript h'), ?_⟩
  rw [h.calls, Job.callsOf_append, List.flatMap_append]
  refine (List.prefix_append_right_inj _).2 ?_
  cases s with
  | ready p => exact List.nil_prefix
  | waiting p => exact List.nil_prefix
  | calling c next =>
    obtain ⟨x, l', rfl, -⟩ := Program.transcript_ask_iff.1 h'
    exact ⟨_, rfl⟩

theorem Job.History.of_done {a : α} {l : List Mark} {s : Standing α}
    (h : History (.done a) l s) : l = [] ∧ s = .ready (.done a) := by
  induction h with
  | start => exact ⟨rfl, rfl⟩
  | note _ hadv ih =>
    obtain ⟨-, rfl⟩ := ih
    cases hadv
  | wake _ ih =>
    obtain ⟨rfl, rfl⟩ := ih
    exact ⟨rfl, rfl⟩

theorem Operation.job_blank {target message : String} (h : isBlankMessage message) :
    (Operation.save message).job target = .done (.save (.failed .emptyMessage)) := by
  rw [Operation.job, Workflow.save, if_pos h]
  rfl

/-! ## Runs -/

/-- What the operations of a run come to. -/
structure Serialized (target : String) (ops : List Operation) (c : Crowd Report) : Prop where
  length_eq : c.jobs.length = ops.length
  /-- An operation asks for the working tree at most once. -/
  nodup : (Crowd.requestsOf c.log).Nodup
  /-- The calls come in blocks, in the order of asking. -/
  blocks : Crowd.callLog c.log = (Crowd.requestsOf c.log).flatMap (Crowd.blockOf c.log)
  /-- Between two calls of an operation there is no call of another one. -/
  unmixed : ∀ pre i m mid m' post, Crowd.callLog c.log = pre ++ (i, m) :: mid ++ (i, m') :: post →
    ∀ e ∈ mid, e.1 = i
  /-- A block holds the first calls of its operation, and no others. -/
  begun : ∀ (i : Nat) op, ops[i]? = some op → ∃ calls r, op.Calls target calls r ∧
    Crowd.blockOf c.log i <+: (calls.flatMap CallRecord.marks).map (i, ·)
  /-- When an operation has ended, its block holds all its calls. -/
  ended : ∀ (i : Nat) op r, ops[i]? = some op → c.jobs[i]? = some (.ready (.done r)) →
    ∃ calls, op.Calls target calls r ∧
      Crowd.blockOf c.log i = (calls.flatMap CallRecord.marks).map (i, ·)
  /-- A save without a message is over at once, and asks for nothing. -/
  blank : ∀ (i : Nat) message, ops[i]? = some (.save message) → isBlankMessage message →
    i ∉ Crowd.requestsOf c.log ∧ c.jobs[i]? = some (.ready (.done (.save (.failed .emptyMessage))))
  /-- Nobody waits for ever: while an operation has not ended, some operation can make a step. -/
  progress : ∀ (i : Nat) s, c.jobs[i]? = some s → (∀ r, s ≠ .ready (.done r)) →
    ∃ j c', Crowd.Step j c c'

/-- The runs of a working tree that is shared: operations start at any time, and each makes its
steps when it likes. -/
inductive Reconciliation (target : String) : List Operation → Crowd Report → Prop
  | idle : Reconciliation target [] {}
  | start {ops : List Operation} {c : Crowd Report} (op : Operation) :
    Reconciliation target ops c → Reconciliation target (ops ++ [op]) (c.start (op.job target))
  | step {ops : List Operation} {c c' : Crowd Report} {i : Nat} :
    Reconciliation target ops c → Crowd.Step i c c' → Reconciliation target ops c'

namespace Crowd

variable {log : List (Nat × Mark)} {i : Nat}

theorem blockOf_eq_map : blockOf log i = ((marksOf log i).filter Mark.isCall).map (i, ·) := by
  induction log with
  | nil => rfl
  | cons e log ih =>
    obtain ⟨j, m⟩ := e
    rw [blockOf, callLog] at ih ⊢
    by_cases hj : j = i <;> cases hm : m.isCall <;> simp_all [marksOf]

theorem mem_requestsOf (h : i ∈ requestsOf log) : .met ⟨.tree .acquire, ()⟩ ∈ marksOf log i := by
  obtain ⟨⟨j, m⟩, hmem, hm⟩ := List.mem_filterMap.1 h
  split at hm
  · next heq =>
    cases hm
    cases heq
    exact List.mem_map.2 ⟨_, List.mem_filter.2 ⟨hmem, beq_self_eq_true i⟩, rfl⟩
  · cases hm

end Crowd

namespace Reconciliation

variable {target : String} {ops : List Operation} {c : Crowd Report}

theorem follows (h : Reconciliation target ops c) :
    Crowd.Follows (ops.map (·.job target)) c := by
  induction h with
  | idle => exact .nil
  | start op _ ih =>
    rw [List.map_append]
    exact ih.start _
  | step _ hs ih => exact ih.step hs

theorem orderly (h : Reconciliation target ops c) : ∃ l, Crowd.Orderly c l := by
  induction h with
  | idle => exact ⟨_, .nil⟩
  | start op _ ih =>
    obtain ⟨l, H⟩ := ih
    exact ⟨l, H.start (op.keeps_job target)⟩
  | step _ hs ih =>
    obtain ⟨l, H⟩ := ih
    exact H.step hs

theorem history (h : Reconciliation target ops c) {i : Nat} {op : Operation}
    (hop : ops[i]? = some op) :
    ∃ s, c.jobs[i]? = some s ∧ (op.job target).History (Crowd.marksOf c.log i) s := by
  refine h.follows.exists_history ?_
  rw [List.getElem?_map, hop]
  rfl

/-- Between two calls of one operation there is no call of another one. -/
theorem unmixed_of_blocks {log pre mid post : List (Nat × Mark)} {i : Nat} {m m' : Mark}
    (hblocks : Crowd.callLog log = (Crowd.requestsOf log).flatMap (Crowd.blockOf log))
    (hnodup : (Crowd.requestsOf log).Nodup)
    (h : Crowd.callLog log = pre ++ (i, m) :: mid ++ (i, m') :: post) : ∀ e ∈ mid, e.1 = i := by
  have hown {k : Nat} {e : Nat × Mark} (he : e ∈ Crowd.blockOf log k) : e.1 = k := by
    simpa using (List.mem_filter.1 he).2
  have hmem : (i, m) ∈ Crowd.callLog log := by simp [h]
  obtain ⟨k, hk, hik⟩ := List.mem_flatMap.1 (hblocks ▸ hmem)
  obtain rfl : i = k := hown hik
  obtain ⟨before, after, hsplit⟩ := List.append_of_mem hk
  rw [hsplit, List.nodup_middle, List.nodup_cons, List.mem_append, not_or] at hnodup
  have hnot {part : List Nat} (hpart : i ∉ part) :
      ∀ e ∈ part.flatMap (Crowd.blockOf log), e.1 ≠ i := by
    intro e he hei
    obtain ⟨k, hk, hek⟩ := List.mem_flatMap.1 he
    exact hpart (hei ▸ hown hek ▸ hk)
  rw [hsplit, List.flatMap_append, List.flatMap_cons, h] at hblocks
  exact mem_of_between (fun e he => hown he) (hnot hnodup.1.1) (hnot hnodup.1.2) rfl rfl
    hblocks.symm

/-- However the steps of the operations are mixed, their calls are not. -/
theorem serialized (h : Reconciliation target ops c) : Serialized target ops c := by
  obtain ⟨l, H⟩ := h.orderly
  have hblocks : Crowd.callLog c.log = (Crowd.requestsOf c.log).flatMap (Crowd.blockOf c.log) :=
    H.requests ▸ H.blocks
  have hnodup : (Crowd.requestsOf c.log).Nodup := H.requests ▸ H.nodup
  refine ⟨?_, hnodup, hblocks, ?_, ?_, ?_, ?_, fun i s hi hs => ?_⟩
  · rw [← h.follows.length_eq, List.length_map]
  · exact fun _ _ _ _ _ _ => unmixed_of_blocks hblocks hnodup
  · intro i op hop
    obtain ⟨s, hs, hist⟩ := h.history hop
    obtain ⟨calls, r, hcalls, hprefix⟩ := Operation.begun hist
    exact ⟨calls, r, hcalls, Crowd.blockOf_eq_map ▸ hprefix.map (i, ·)⟩
  · intro i op r hop hr
    obtain ⟨s, hs, hist⟩ := h.history hop
    cases hs.symm.trans hr
    have hcalls := hist.calls
    have hdone := Operation.calls_of_transcript (by simpa using hist.leads.transcript .done)
    refine ⟨_, hdone, ?_⟩
    rw [Crowd.blockOf_eq_map, hcalls]
    simp [Standing.pending]
  · intro i message hop hmessage
    obtain ⟨s, hs, hist⟩ := h.history hop
    rw [Operation.job_blank hmessage] at hist
    obtain ⟨hnil, rfl⟩ := hist.of_done
    refine ⟨fun hmem => ?_, hs⟩
    have hmark := Crowd.mem_requestsOf hmem
    rw [hnil] at hmark
    cases hmark
  · obtain ⟨j, c', ⟨hstep, -⟩, -⟩ := H.progress HostStep.plainAnswer hi hs
    exact ⟨j, c', hstep⟩

/-- A status read that comes upon a save waits until the save has let go of the tree; a save without
a message does not wait. -/
theorem serialized_save_status : ∃ c : Crowd Report,
    Reconciliation "updates" [.save "Notes", .status, .save " "] c ∧
      Crowd.requestsOf c.log = [0, 1] ∧
      Crowd.callLog c.log = [(0, .began .currentBranch),
        (0, .met ⟨.tree (.repository .currentBranch), .ok "updates"⟩),
        (0, .began (.commit "Notes")),
        (0, .met ⟨.tree (.repository (.commit "Notes")), .ok .nothingToCommit⟩),
        (1, .began .currentBranch)] ∧
      Serialized "updates" [.save "Notes", .status, .save " "] c := by
  have started : Reconciliation "updates" [.save "Notes", .status, .save " "] _ :=
    ((Reconciliation.idle.start (.save "Notes")).start .status).start (.save " ")
  have reading := (started.step (i := 0) (.take rfl rfl)).step (i := 0) (.begin rfl)
  have queued := reading.step (i := 1) (.wait rfl rfl)
  have read := queued.step (i := 0) (.answered rfl (.ok "updates"))
  have committing := read.step (i := 0) (.begin rfl)
  have committed := committing.step (i := 0) (.answered rfl (.ok CommitOutcome.nothingToCommit))
  have passed := committed.step (i := 0) (.pass rfl rfl)
  have ended := passed.step (i := 1) (.begin rfl)
  exact ⟨_, ended, rfl, rfl, ended.serialized⟩

end Reconciliation
end PublishDesk
