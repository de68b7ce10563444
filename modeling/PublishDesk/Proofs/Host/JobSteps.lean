import PublishDesk.Proofs.Host.Answers

/-!
# What the steps of a job come to

The steps of a job say what it has posted and what it has committed. A job that carries out a save
request reports once, at its end (`Job.reports_of_transcript`), and makes at most one commit, with
the message of the request (`Job.commits_of_leads_save`). No job commits unless it has just been
told that the target branch is checked out (`Job.Careful`).
-/

namespace PublishDesk

variable {α β : Type}

def CallRecord.committed? : CallRecord → Option String
  | ⟨.commit m, .ok .committed⟩ => some m
  | _ => none

/-- Whether a message is one that a host sends to a view. -/
def Message.isAnswer : Message → Bool
  | .pong _ | .saveResult _ => true
  | _ => false

namespace Job

/-- A step that a job has made, with its answer. -/
abbrev Made := Exchange HostStep HostStep.Answer

def posted? : Made → Option Message
  | ⟨.post m, _⟩ => some m
  | _ => none

/-- The message of a commit that has been made. -/
def committed? : Made → Option String
  | ⟨.tree (.repository c), a⟩ => CallRecord.committed? ⟨c, a⟩
  | _ => none

def posts (l : List Made) : List Message := l.filterMap posted?

def commits (l : List Made) : List String := l.filterMap committed?

/-- How many of the messages say how a save ended. -/
def reports (ms : List Message) : Nat := ms.countP (·.kind == .saveResult)

@[simp] theorem posts_append (l l' : List Made) : posts (l ++ l') = posts l ++ posts l' :=
  List.filterMap_append

@[simp] theorem commits_append (l l' : List Made) : commits (l ++ l') = commits l ++ commits l' :=
  List.filterMap_append

theorem commits_eq (l : List Made) : commits l = (callsOf l).filterMap CallRecord.committed? := by
  rw [callsOf, List.filterMap_filterMap, commits]
  congr 1
  funext e
  obtain ⟨⟨_ | _ | _ | _⟩ | _ | _ | _ | _ | _, a⟩ := e <;> rfl

@[simp] theorem reports_append (ms ms' : List Message) :
    reports (ms ++ ms') = reports ms + reports ms' := List.countP_append

/-! ## Reports -/

section

variable {target message : String} {l : List Made} {p : Job Unit} {u : Unit}

theorem posts_stepsOfWorkflow (l : List (Exchange TreeStep TreeStep.Answer)) :
    posts (stepsOfWorkflow l) = [] := by
  induction l with
  | nil => rfl
  | cons e l ih => exact ih

theorem reports_eq_zero (h : ∀ ok, answered ok ∉ l) : reports (posts l) = 0 := by
  refine List.countP_eq_zero.2 fun m hm hkind => ?_
  obtain ⟨⟨s, a⟩, he, hposted⟩ := List.mem_filterMap.1 hm
  cases s with
  | post m' =>
    obtain rfl : m' = m := Option.some.inj hposted
    cases m' with
    | saveResult ok => exact h ok he
    | ping | pong | requestSave => cases hkind
  | _ => cases hposted

theorem reports_of_transcript (h : (save target message).Transcript l u) :
    reports (posts l) = 1 := by
  obtain ⟨l', o, -, rfl⟩ := transcript_save_iff.1 h
  rw [posts_append, posts_stepsOfWorkflow]
  rfl

/-- A save that has not ended has not reported. -/
theorem reports_of_leads_save (h : (save target message).Leads l p) (hp : p ≠ .done ()) :
    reports (posts l) = 0 :=
  reports_eq_zero fun _ hok => hp (leads_save_of_answered h hok).1

theorem reports_of_leads_poll (h : (poll target).Leads l p) : reports (posts l) = 0 := by
  obtain ⟨rest, u, hrest⟩ := Program.exists_transcript p
  refine reports_eq_zero fun ok hok => ?_
  exact posts_of_poll (h.transcript hrest) ok (List.mem_append_left rest hok)

/-- The steps of a job that answers a ping. -/
theorem transcript_poll (h : (poll target).Transcript l u) : ∃ up l' status link s,
    (Workflow.status target).Transcript l' status ∧
      l = ⟨.workerUp, up⟩ :: (stepsOfWorkflow l' ++
        [⟨.updateLink status, link⟩, ⟨.endPoll, ()⟩, ⟨.post (.pong s), ()⟩]) := by
  simp only [poll, status, Program.transcript_bind_iff, transcript_ofWorkflow_iff,
    Program.transcript_ask_iff, Program.transcript_done_iff] at h
  obtain ⟨_, s, _, rfl, ⟨up, _, rfl, _, status, _, rfl, ⟨l', rfl, hstatus⟩, link, _, rfl, rfl, -⟩,
    ⟨⟩, _, rfl, ⟨⟩, _, rfl, rfl, -⟩ := h
  refine ⟨up, l', status, link, s, hstatus, ?_⟩
  rw [List.cons_append, List.append_assoc]
  rfl

/-- A job posts nothing but answers. -/
theorem isAnswer_of_leads_save (h : (save target message).Leads l p) :
    ∀ m ∈ posts l, m.isAnswer := by
  obtain ⟨rest, u, hrest⟩ := Program.exists_transcript p
  obtain ⟨l', o, -, hl⟩ := transcript_save_iff.1 (h.transcript hrest)
  have hall : posts l ++ posts rest = [.saveResult o.ok] := by
    rw [← posts_append, hl, posts_append, posts_stepsOfWorkflow]
    rfl
  intro m hm
  obtain rfl := List.mem_singleton.1 (hall ▸ List.mem_append_left _ hm)
  rfl

theorem isAnswer_of_leads_poll (h : (poll target).Leads l p) : ∀ m ∈ posts l, m.isAnswer := by
  obtain ⟨rest, u, hrest⟩ := Program.exists_transcript p
  obtain ⟨up, l', status, link, s, -, hl⟩ := transcript_poll (h.transcript hrest)
  have hall : posts l ++ posts rest = [.pong s] := by
    rw [← posts_append, hl, ← List.singleton_append, posts_append, posts_append,
      posts_stepsOfWorkflow]
    rfl
  intro m hm
  obtain rfl := List.mem_singleton.1 (hall ▸ List.mem_append_left _ hm)
  rfl

/-! ## Commits -/

theorem commits_of_published {calls : List CallRecord} {o : SaveOutcome}
    (h : Workflow.Published target message calls o) :
    calls.filterMap CallRecord.committed? <+: [message] := by
  have hprepared {calls : List CallRecord} {failure : Option String}
      (h : Workflow.Preparation target calls failure) :
      calls.filterMap CallRecord.committed? = [] := by
    cases h with
    | there | unlisted => rfl
    | moved | unmoved | unreadable | elsewhere =>
      unfold CallRecord.switch
      split <;> rfl
  cases h with
  | prepared h h' =>
    rw [List.filterMap_append, hprepared h]
    cases h' with
    | refused | clean => exact List.nil_prefix
    | unpushed | pushed => exact List.prefix_rfl
  | abandoned h =>
    rw [hprepared h]
    exact List.nil_prefix

theorem commits_of_transcript (h : (save target message).Transcript l u) :
    commits l <+: [message] := by
  obtain ⟨l', o, hl', rfl⟩ := transcript_save_iff.1 h
  have hcalls := Workflow.calls_of_transcript_save hl'
  rw [← callsOf_ofWorkflow] at hcalls
  have heq : commits (stepsOfWorkflow l' ++ [answered o.ok]) = commits (stepsOfWorkflow l') := by
    rw [commits_append]
    exact List.append_nil _
  rw [heq, commits_eq, stepsOfWorkflow]
  generalize callsOf _ = calls at hcalls
  cases hcalls with
  | blank => exact List.nil_prefix
  | save _ h => exact commits_of_published h

/-- A save makes at most one commit, with its message. -/
theorem commits_of_leads_save (h : (save target message).Leads l p) : commits l <+: [message] := by
  obtain ⟨rest, u, hrest⟩ := Program.exists_transcript p
  have hall := commits_of_transcript (h.transcript hrest)
  rw [commits_append] at hall
  exact (List.prefix_append _ _).trans hall

theorem commits_of_leads_poll (h : (poll target).Leads l p) : commits l = [] := by
  obtain ⟨rest, u, hrest⟩ := Program.exists_transcript p
  obtain ⟨up, l', status, link, s, hstatus, hl⟩ := transcript_poll (h.transcript hrest)
  have hnone : commits (stepsOfWorkflow l') = [] := by
    have hcalls := Workflow.calls_of_transcript_status hstatus
    rw [← callsOf_ofWorkflow] at hcalls
    rw [commits_eq, stepsOfWorkflow]
    generalize callsOf _ = calls at hcalls
    cases hcalls <;> rfl
  have hall : commits l ++ commits rest = [] := by
    rw [← commits_append, hl, ← List.singleton_append, commits_append, commits_append, hnone]
    rfl
  exact (List.append_eq_nil_iff.1 hall).1

end

/-! ## Commits come after a look at the branch -/

/-- Whether a step has told the job that the target branch is checked out. -/
def sees (target : String) : Made → Bool
  | ⟨.tree (.repository .currentBranch), .ok name⟩ => name == target
  | _ => false

/-- The job commits only if the step before has told it that the target branch is checked out.
`seen` says whether the last step so far has. -/
def Careful (target : String) : (seen : Bool) → Job α → Prop
  | _, .done _ => True
  | seen, .ask s next =>
    ((∃ m, s = .tree (.repository (.commit m))) → seen) ∧
      ∀ a, Careful target (sees target ⟨s, a⟩) (next a)

variable {target : String} {seen : Bool}

theorem Careful.mono {p : Job α} (h : Careful target false p) (seen : Bool) :
    Careful target seen p := by
  cases p with
  | done a => trivial
  | ask s next => exact ⟨fun hs => absurd (h.1 hs) Bool.false_ne_true, h.2⟩

theorem Careful.bind {p : Job α} {k : α → Job β} (h : Careful target seen p)
    (hk : ∀ a, Careful target false (k a)) : Careful target seen (p.bind k) := by
  induction p generalizing seen with
  | done a => exact (hk a).mono seen
  | ask s next ih => exact ⟨h.1, fun a => ih a (h.2 a)⟩

theorem Careful.map {p : Job α} (h : Careful target seen p) (f : α → β) :
    Careful target seen (p.map f) := by
  induction p generalizing seen with
  | done a => trivial
  | ask s next ih => exact ⟨h.1, fun a => ih a (h.2 a)⟩

theorem Careful.ask {s : HostStep} {next : s.Answer → Job α}
    (hs : ∀ m, s ≠ .tree (.repository (.commit m)))
    (h : ∀ a, Careful target (sees target ⟨s, a⟩) (next a)) :
    Careful target seen (.ask s next) :=
  ⟨fun ⟨m, hm⟩ => absurd hm (hs m), h⟩

theorem careful_commit (target message : String) :
    Careful target true (ofWorkflow (Workflow.commit target message)) := by
  refine ⟨fun _ => rfl, fun
    | .error _ | .ok .nothingToCommit => trivial
    | .ok .committed => .ask nofun fun
      | .ok () | .error _ => trivial⟩

theorem careful_confirm {next : Workflow SaveOutcome} (h : Careful target true (ofWorkflow next)) :
    Careful target seen (ofWorkflow (Workflow.confirm target next)) := by
  refine .ask nofun fun
    | .error _ => trivial
    | .ok name => ?_
  by_cases hname : name = target
  · subst hname
    simpa [ofWorkflow, sees] using h
  · simp [hname, Program.expand, Careful]

theorem careful_switch {next : Workflow SaveOutcome} (h : Careful target true (ofWorkflow next)) :
    Careful target seen (ofWorkflow (Workflow.switch target next)) := by
  refine .ask nofun fun
    | .error _ => trivial
    | .ok names => ?_
  dsimp only [Program.done_bind]
  split <;>
  · refine .ask nofun fun
      | .ok () => careful_confirm h
      | .error _ => trivial

theorem careful_publish (target message : String) :
    Careful target seen (ofWorkflow (Workflow.publish target message)) := by
  refine .ask nofun fun
    | .error _ => careful_switch (careful_commit target message)
    | .ok name => ?_
  rw [Program.done_bind]
  by_cases hname : name = target
  · simp only [if_pos hname]
    have hsees : sees target ⟨.tree (.repository .currentBranch), .ok name⟩ = true :=
      beq_iff_eq.2 hname
    rw [hsees]
    exact careful_commit target message
  · simp only [if_neg hname]
    exact careful_switch (careful_commit target message)

theorem careful_saving (target message : String) :
    Careful target false (ofWorkflow (Workflow.save target message)) := by
  unfold Workflow.save
  split
  · trivial
  · refine .ask nofun fun () => ?_
    rw [Program.done_bind, Program.expand_bind]
    exact (careful_publish target message).bind fun o => .ask nofun fun () => trivial

theorem careful_looking (target : String) :
    Careful target false (ofWorkflow (Workflow.status target)) := by
  refine .ask nofun fun () => .ask nofun fun current => .ask nofun fun () => ?_
  cases current with
  | error reason => trivial
  | ok name =>
    rw [Program.done_bind]
    by_cases hname : name = target
    · simp only [if_pos hname]
      exact .ask nofun fun link => trivial
    · simp only [if_neg hname]
      trivial

theorem careful_save (target message : String) : Careful target false (save target message) :=
  (careful_saving target message).bind fun _ => .ask nofun fun () => trivial

theorem careful_poll (target : String) : Careful target false (poll target) := by
  refine Careful.bind ?_ fun s => .ask nofun fun () => .ask nofun fun () => trivial
  refine .ask nofun fun up => Careful.mono (Careful.bind (careful_looking target) fun r => ?_) _
  exact .ask nofun fun link => trivial

end Job
end PublishDesk
