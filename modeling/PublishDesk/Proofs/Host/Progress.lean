import Mathlib.Logic.Relation
import PublishDesk.Cancellation
import PublishDesk.Proofs.Host.TreeOrder

/-!
# Nobody waits for ever

While some job of a crowd has not ended, some job can make a step (`Crowd.Orderly.progress`): a job
that waits for the working tree waits for one that can go on. So all jobs come to an end if each
call has an answer (`Crowd.Orderly.exists_finish`), whatever the answers are
(`Crowd.Orderly.exists_finish_by`).
-/

namespace PublishDesk

open Cancellation (total total_set)

variable {α : Type}

/-- An answer to a step, for a job that has to come to an end and no more. -/
def HostStep.plainAnswer : (s : HostStep) → s.Answer
  | .tree (.repository _) => .error ""
  | .tree .acquire | .tree .release | .endPoll | .post _ => ()
  | .tree (.findReview _) => .ok none
  | .workerUp => false
  | .worker | .updateLink _ => none

instance (s : HostStep) : Nonempty s.Answer := ⟨s.plainAnswer⟩

section

variable (answer : (s : HostStep) → s.Answer)

/-- How many steps a job has ahead if it gets these answers. -/
def Job.length : Job α → Nat
  | .done _ => 0
  | .ask s next => length (next (answer s)) + 1

/-- How much a job has ahead. A call takes two steps. -/
def Standing.work : Standing α → Nat
  | .ready p | .waiting p => 2 * Job.length answer p
  | .calling c next => 2 * Job.length answer (next (answer (.tree (.repository c)))) + 1

theorem Standing.work_wake (s : Standing α) : s.wake.work answer = s.work answer := by
  cases s <;> rfl

def Crowd.work (c : Crowd α) : Nat := total (Standing.work answer) c.jobs

/-- A step that has its answer has this one. -/
def Mark.IsBy (m : Mark) : Prop := ∀ s a, m = .met ⟨s, a⟩ → a = answer s

end

namespace Crowd

variable {answer : (s : HostStep) → s.Answer} {c c' : Crowd α} {l : Ledger} {i j : Nat}
  {s s' : Standing α} {m : Mark}

theorem isBy_met (s : HostStep) : (Mark.met ⟨s, answer s⟩).IsBy answer := by
  intro s' a h
  cases h
  rfl

/-- A job makes a step, with the answer that is given for it. -/
def StepBy (answer : (s : HostStep) → s.Answer) (i : Nat) (c c' : Crowd α) : Prop :=
  Step i c c' ∧ ∃ m, c'.log = c.log ++ [(i, m)] ∧ m.IsBy answer

theorem work_put_lt (hi : c.jobs[i]? = some s) (h : s'.work answer < s.work answer) :
    (c.put i s' m).work answer < c.work answer := by
  obtain ⟨hlt, hget⟩ := List.getElem?_eq_some_iff.1 hi
  have hset := total_set (Standing.work answer) c.jobs i hlt s'
  rw [hget] at hset
  change total (Standing.work answer) (c.jobs.set i s') < total (Standing.work answer) c.jobs
  omega

theorem work_setLock (c : Crowd α) (lock : TreeLock) :
    (c.setLock lock).work answer = c.work answer := rfl

theorem work_wake (c : Crowd α) (j : Nat) : (c.wake j).work answer = c.work answer := by
  change total (Standing.work answer) (c.jobs.modify j Standing.wake) =
    total (Standing.work answer) c.jobs
  generalize c.jobs = jobs
  induction jobs generalizing j with
  | nil => cases j <;> rfl
  | cons s jobs ih =>
    cases j with
    | zero => simp [total, Standing.work_wake]
    | succ j => simp [total, ih]

/-- A job that has a step ahead, and does not wait, can make it. -/
theorem exists_step_of_ask {q : HostStep} {next : q.Answer → Job α}
    (hi : c.jobs[i]? = some (.ready (.ask q next))) :
    ∃ c', StepBy answer i c c' ∧ c'.work answer < c.work answer := by
  have hput {s' : Standing α} {m : Mark}
      (h : s'.work answer < 2 * Job.length answer (.ask q next)) :
      (c.put i s' m).work answer < c.work answer := work_put_lt hi h
  simp only [Job.length] at hput
  obtain ⟨_ | _ | r | b⟩ | _ | _ | _ | _ | _ := q
  case tree.acquire =>
    rcases hl : c.lock.acquire i with ⟨_ | _, lock⟩
    · refine ⟨_, ⟨.wait hi hl, _, rfl, isBy_met _⟩, ?_⟩
      rw [work_setLock]
      exact hput (Nat.lt_succ_of_lt (Nat.lt_succ_self _))
    · refine ⟨_, ⟨.take hi hl, _, rfl, isBy_met _⟩, ?_⟩
      rw [work_setLock]
      exact hput (Nat.lt_succ_of_lt (Nat.lt_succ_self _))
  case tree.release =>
    rcases hl : c.lock.release with ⟨_ | j, lock⟩
    · refine ⟨_, ⟨.free hi hl, _, rfl, isBy_met _⟩, ?_⟩
      rw [work_setLock]
      exact hput (Nat.lt_succ_of_lt (Nat.lt_succ_self _))
    · refine ⟨_, ⟨.pass hi hl, _, rfl, isBy_met _⟩, ?_⟩
      rw [work_wake, work_setLock]
      exact hput (Nat.lt_succ_of_lt (Nat.lt_succ_self _))
  case tree.repository => exact ⟨_, ⟨.begin hi, _, rfl, nofun⟩, hput (Nat.lt_succ_self _)⟩
  all_goals
    exact ⟨_, ⟨.aside hi rfl _, _, rfl, isBy_met _⟩, hput (Nat.lt_succ_of_lt (Nat.lt_succ_self _))⟩

theorem exists_step_of_calling {r : RepositoryCall} {next : r.Answer → Job α}
    (hi : c.jobs[i]? = some (.calling r next)) :
    ∃ c', StepBy answer i c c' ∧ c'.work answer < c.work answer :=
  ⟨_, ⟨.answered hi _, _, rfl, isBy_met _⟩, work_put_lt hi (Nat.lt_succ_self _)⟩

theorem Orderly.eq_of_rest (H : Orderly c l) (hi : c.jobs[i]? = some s) {a : α}
    (hs : s.rest = .done a) : s = .ready (.done a) := by
  cases s with
  | ready p => exact congrArg _ hs
  | calling r next => cases hs
  | waiting p =>
    obtain rfl : p = .done a := hs
    have hfits := H.fits i _ hi
    rw [Standing.place_of_waiting hfits] at hfits
    exact absurd rfl (Job.Keeps.of_done hfits)

/-- While some job has not ended, some job can make a step. -/
theorem Orderly.progress (answer : (s : HostStep) → s.Answer) (H : Orderly c l)
    (hi : c.jobs[i]? = some s) (hs : ∀ a, s ≠ .ready (.done a)) :
    ∃ j c', StepBy answer j c c' ∧ c'.work answer < c.work answer := by
  cases s with
  | calling r next => exact ⟨i, exists_step_of_calling hi⟩
  | ready p =>
    cases p with
    | done a => exact absurd rfl (hs a)
    | ask q next => exact ⟨i, exists_step_of_ask hi⟩
  | waiting p =>
    -- The job that has the tree can go on.
    have hplace : l.place i = .waiting := Standing.place_of_waiting (H.fits i _ hi)
    obtain ⟨j, hj⟩ : ∃ j, l.holder = some j := by
      refine Option.ne_none_iff_exists'.1 fun hnone => ?_
      have hmem := Ledger.mem_waiting_of_place hplace
      rw [H.idle hnone] at hmem
      cases hmem
    have hlt : j < c.jobs.length := H.known j (by simp [Ledger.all, hj])
    have hfits := H.fits j _ (List.getElem?_eq_getElem hlt)
    rw [Ledger.place_of_holder H.nodup hj] at hfits
    generalize ht : c.jobs[j] = t at hfits
    have hget : c.jobs[j]? = some t := ht ▸ List.getElem?_eq_getElem hlt
    cases t with
    | calling r next => exact ⟨j, exists_step_of_calling hget⟩
    | waiting p => exact hfits.elim
    | ready p =>
      cases p with
      | ask q next => exact ⟨j, exists_step_of_ask hget⟩
      | done a => exact absurd rfl (Job.Keeps.of_done hfits)

theorem Orderly.exists_finish_by (answer : (s : HostStep) → s.Answer) (H : Orderly c l) :
    ∃ c', Relation.ReflTransGen (fun c c' => ∃ i, StepBy answer i c c') c c' ∧
      ∀ s ∈ c'.jobs, ∃ a, s = .ready (.done a) := by
  induction hw : c.work answer using Nat.strongRecOn generalizing c l with
  | _ n ih =>
    by_cases hdone : ∀ s ∈ c.jobs, ∃ a, s = .ready (.done a)
    · exact ⟨c, .refl, hdone⟩
    · push Not at hdone
      obtain ⟨s, hs, hnot⟩ := hdone
      obtain ⟨i, hi⟩ := List.getElem?_of_mem hs
      obtain ⟨j, c₁, hstep, hlt⟩ := H.progress answer hi hnot
      obtain ⟨l₁, H₁⟩ := H.step hstep.1
      obtain ⟨c', hsteps, hall⟩ := ih _ (hw ▸ hlt) H₁ rfl
      exact ⟨c', .head ⟨j, hstep⟩ hsteps, hall⟩

theorem Orderly.exists_finish (H : Orderly c l) :
    ∃ c', Relation.ReflTransGen (fun c c' => ∃ i, Step i c c') c c' ∧
      ∀ s ∈ c'.jobs, ∃ a, s = .ready (.done a) := by
  obtain ⟨c', hsteps, hdone⟩ := H.exists_finish_by HostStep.plainAnswer
  exact ⟨c', Relation.ReflTransGen.mono (fun _ _ ⟨i, hi, _⟩ => ⟨i, hi⟩) _ _ hsteps, hdone⟩

end Crowd
end PublishDesk
