import PublishDesk.Proofs.Host.Serial

/-!
# What jobs answer

A job that carries out a save request posts one answer, and nothing follows it: how the save ended
(`Job.transcript_save_iff`). A job that answers a ping never posts the result of a save
(`Job.posts_of_poll`).
-/

namespace PublishDesk

namespace Program

variable {Q : Type} {A : Q → Type} {α : Type}

theorem Leads.eq_done {p p' : Program Q A α} {l : List (Exchange Q A)} {a : α} (h : p.Leads l p')
    (h' : p.Transcript l a) : p' = .done a := by
  induction h with
  | nil =>
    cases h' with
    | done => rfl
  | ask _ ih =>
    cases h' with
    | ask h' => exact ih h'

end Program

namespace Job

abbrev answered (ok : Bool) : Exchange HostStep HostStep.Answer := ⟨.post (.saveResult ok), ()⟩

def stepsOfWorkflow (l : List (Exchange TreeStep TreeStep.Answer)) :
    List (Exchange HostStep HostStep.Answer) := l.map fun e => ⟨.tree e.1, e.2⟩

theorem transcript_save_iff {target message : String}
    {l : List (Exchange HostStep HostStep.Answer)} {u : Unit} :
    (save target message).Transcript l u ↔ ∃ l' o,
      (Workflow.save target message).Transcript l' o ∧
        l = stepsOfWorkflow l' ++ [answered o.ok] := by
  simp only [save, Program.transcript_bind_iff, transcript_ofWorkflow_iff,
    Program.transcript_ask_iff, Program.transcript_done_iff]
  constructor
  · rintro ⟨_, o, _, rfl, ⟨l', rfl, h⟩, ⟨⟩, _, rfl, rfl, -⟩
    exact ⟨l', o, h, rfl⟩
  · rintro ⟨l', o, h, rfl⟩
    exact ⟨_, o, _, rfl, ⟨l', rfl, h⟩, (), [], rfl, rfl, trivial⟩

theorem answered_not_mem (l : List (Exchange TreeStep TreeStep.Answer)) (ok : Bool) :
    answered ok ∉ stepsOfWorkflow l := by
  intro h
  obtain ⟨e, -, he⟩ := List.mem_map.1 h
  cases he

/-- A save that has posted an answer has ended, and has nothing left to do. -/
theorem leads_save_of_answered {target message : String}
    {l : List (Exchange HostStep HostStep.Answer)} {p : Job Unit} {ok : Bool}
    (h : (save target message).Leads l p) (hok : answered ok ∈ l) :
    p = .done () ∧ ∃ l' o, (Workflow.save target message).Transcript l' o ∧
      l = stepsOfWorkflow l' ++ [answered o.ok] := by
  obtain ⟨rest, u, hrest⟩ := Program.exists_transcript p
  obtain ⟨l', o, hl', heq⟩ := transcript_save_iff.1 (h.transcript hrest)
  have hnot := answered_not_mem l' ok
  -- The answer comes last, so nothing is left of the job.
  obtain ⟨as, hsteps, -⟩ | ⟨cs, rfl, hlast⟩ := List.append_eq_append_iff.1 heq
  · exact absurd (hsteps ▸ List.mem_append_left _ hok) hnot
  · obtain ⟨rfl, -⟩ | ⟨_, rfl, hnil⟩ := List.cons_eq_append_iff.1 hlast
    · exact absurd (by simpa using hok) hnot
    · obtain ⟨rfl, rfl⟩ := List.append_eq_nil_iff.1 hnil.symm
      exact ⟨h.eq_done (transcript_save_iff.2 ⟨l', o, hl', rfl⟩), l', o, hl', rfl⟩

/-- A job that answers a ping never posts the result of a save. -/
theorem posts_of_poll {target : String} {l : List (Exchange HostStep HostStep.Answer)} {u : Unit}
    (h : (poll target).Transcript l u) (ok : Bool) : answered ok ∉ l := by
  simp only [poll, status, Program.transcript_bind_iff, transcript_ofWorkflow_iff,
    Program.transcript_ask_iff, Program.transcript_done_iff] at h
  obtain ⟨_, s, _, rfl, ⟨up, _, rfl, _, r, _, rfl, ⟨l, rfl, -⟩, link, _, rfl, rfl, -⟩, ⟨⟩, _, rfl,
    ⟨⟩, _, rfl, rfl, -⟩ := h
  simp [answered]

end Job

/-- What a job of the host has been started for. -/
inductive Origin where
  | ping
  /-- A save has been requested by a caller. -/
  | save (caller : Nat) (message : String)
deriving DecidableEq, Repr

namespace Origin

variable {target : String} {l : List (Exchange HostStep HostStep.Answer)} {p : Job Unit} {ok : Bool}

def job (target : String) : Origin → Job Unit
  | .ping => Job.poll target
  | .save _ message => Job.save target message

/-- The host starts these jobs. -/
theorem handle_requestSave (caller : Nat) (message : String) (c : HostCrew) :
    HostCrew.handle (.requestSave message) c =
      c.start ((save caller message).job c.desk.target) := rfl

theorem keeps_job (target : String) (o : Origin) : (o.job target).Keeps .before := by
  cases o with
  | save caller message =>
    refine (Job.keeps_save target message).bind fun h hh o => ?_
    exact .aside hh rfl fun _ => .done hh ()
  | ping =>
    refine Job.Keeps.bind ?_ fun h hh s => ?_
    · refine .aside (by decide) rfl fun up => (Job.keeps_status target).bind fun h hh s => ?_
      exact .aside hh rfl fun link => .done hh _
    · exact .aside hh rfl fun _ => .aside hh rfl fun _ => .done hh ()

/-- The result of a save is posted by a job that carries out a save, after the save has ended so. -/
theorem save_of_answered {o : Origin} (h : (o.job target).Leads (l ++ [Job.answered ok]) p) :
    ∃ caller message l' outcome, o = .save caller message ∧ l = Job.stepsOfWorkflow l' ∧
      (Workflow.save target message).Transcript l' outcome ∧ outcome.ok = ok := by
  cases o with
  | ping =>
    obtain ⟨rest, u, hrest⟩ := Program.exists_transcript p
    exact absurd (by simp) (Job.posts_of_poll (h.transcript hrest) ok)
  | save caller message =>
    obtain ⟨-, l', outcome, hl', heq⟩ :=
      Job.leads_save_of_answered h (List.mem_append_right l (.head _))
    obtain ⟨rfl, hanswer⟩ := List.append_inj' heq rfl
    refine ⟨caller, message, l', outcome, rfl, rfl, hl', ?_⟩
    simpa [eq_comm] using hanswer

end Origin
end PublishDesk
