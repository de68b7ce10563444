import PublishDesk.Proofs.Host.CrewRuns
import PublishDesk.Proofs.Host.JobSteps

/-!
# What a run of a job does to the desk

`Desk.work` lets a job run until it ends or has to wait, and `Desk.steps` lists the steps that it
makes meanwhile. The steps tell what the run has changed of the desk (`Desk.Reflects`); and how far
it comes depends only on whether the job has the working tree, and whether the tree is free
(`Desk.Outcome`).
-/

namespace PublishDesk

open Job

variable {α : Type}

namespace MemoryRepository

theorem commits_answer {target : String} {c : RepositoryCall} {r : MemoryRepository}
    (h : (∃ m, c = .commit m) → r.current = some target) :
    (r.answer c).2.commits =
      r.commits ++ (Job.commits [⟨.tree (.repository c), (r.answer c).1⟩]).map (target, ·) := by
  cases c with
  | commit m =>
    have hcurrent := h ⟨m, rfl⟩
    obtain ⟨_, _, _ | _, _, _ | _, _, _, _, _⟩ := r <;> cases hcurrent
    case true.false.refl => rfl
    all_goals exact (List.append_nil _).symm
  | currentBranch | branches => exact (List.append_nil _).symm
  | checkout b =>
    rw [answer, checkout]
    split <;> [skip; split] <;> exact (List.append_nil _).symm
  | checkoutNew b =>
    rw [answer, checkoutNew]
    split <;> [skip; split] <;> exact (List.append_nil _).symm
  | push b u =>
    rw [answer, push]
    split <;> exact (List.append_nil _).symm

theorem current_of_sees {target : String} {c : RepositoryCall} {r : MemoryRepository}
    (h : sees target ⟨.tree (.repository c), (r.answer c).1⟩) :
    (r.answer c).2.current = some target := by
  cases c with
  | currentBranch =>
    cases hcurrent : r.current with
    | none => simp [answer, hcurrent, sees] at h
    | some name => simpa [answer, hcurrent, sees] using h
  | _ => cases h

end MemoryRepository

namespace Desk

/-- The steps that a run of a job makes, with their answers. -/
def steps (job : Nat) (passed : Bool) : Job α → Desk → List Made
  | .done _, _ => []
  | .ask s next, d =>
    match d.step job passed s with
    | (.answered a, d, _) => ⟨s, a⟩ :: steps job false (next a) d
    | (.promised a, _, _) => [⟨s, a⟩]
    | (.held, _, _) => []

/-- What is left of a job that has come to a halt. -/
def Halt.rest : Halt α → Job α
  | .ended a => .done a
  | .waiting rest => rest

theorem leads_steps (i : Nat) (passed : Bool) (p : Job α) (d : Desk) :
    p.Leads (d.steps i passed p) (d.work i passed p).halt.rest := by
  induction p generalizing passed d with
  | done a => exact .nil
  | ask s next ih =>
    rw [steps, work]
    rcases d.step i passed s with ⟨a | a | _, d', woken⟩
    · exact .ask (ih a false d')
    · exact .ask .nil
    · exact .nil

/-! ## What has changed -/

/-- A desk has changed as the steps say. -/
structure Reflects (l : List Made) (d d' : Desk) : Prop where
  target : d'.target = d.target
  kept : d'.host.kept = d.host.kept
  bus : d'.host.bus = d.host.bus.postAll (posts l)
  commits : d'.repository.commits = d.repository.commits ++ (Job.commits l).map (d.target, ·)

theorem Reflects.refl (d : Desk) : Reflects [] d d :=
  ⟨rfl, rfl, rfl, (List.append_nil _).symm⟩

theorem Reflects.trans {l l' : List Made} {d d' d'' : Desk} (h : Reflects l d d')
    (h' : Reflects l' d' d'') : Reflects (l ++ l') d d'' where
  target := h'.target.trans h.target
  kept := h'.kept.trans h.kept
  bus := by
    rw [h'.bus, h.bus, posts_append, Bus.postAll, Bus.postAll, Bus.postAll, List.foldl_append]
  commits := by
    rw [h'.commits, h.commits, h.target, commits_append, List.map_append, List.append_assoc]

variable {d d' : Desk} {i : Nat} {passed seen : Bool} {s : HostStep} {woken : Option Nat}

/-- The answer to a step, even if the job has to wait for it. -/
def Progress.answer? {A : Type} : Progress A → Option A
  | .answered a | .promised a => some a
  | .held => none

/-- A step that gets no answer leaves no trace; an answer tells what has changed. -/
theorem step_reflects {progress : Progress s.Answer}
    (h : d.step i passed s = (progress, d', woken))
    (hcommit : (∃ m, s = .tree (.repository (.commit m))) → d.repository.current = some d.target) :
    Reflects (progress.answer?.toList.map fun a => ⟨s, a⟩) d d' ∧
      ∀ a, progress.answer? = some a → sees d.target ⟨s, a⟩ →
        d'.repository.current = some d.target := by
  obtain ⟨_ | _ | c | _⟩ | _ | _ | _ | _ | m := s
  case tree.acquire =>
    rcases hl : d.lock.acquire i with ⟨_ | _, lock⟩ <;>
    · rw [step, hl] at h
      cases h
      exact ⟨⟨rfl, rfl, rfl, (List.append_nil _).symm⟩, fun a _ h => absurd h Bool.false_ne_true⟩
  case tree.repository =>
    obtain ⟨gates, ⟨hstep, -⟩ | ⟨hstep, -⟩⟩ := step_call i passed c d
    · cases hstep.symm.trans h
      refine ⟨⟨rfl, rfl, rfl, ?_⟩, fun a ha => ?_⟩
      · exact MemoryRepository.commits_answer fun hc => hcommit (hc.imp fun m hm => by rw [hm])
      · obtain rfl := Option.some.inj ha
        exact MemoryRepository.current_of_sees
    · cases hstep.symm.trans h
      exact ⟨⟨rfl, rfl, rfl, (List.append_nil _).symm⟩, fun a ha =>
        absurd ha.symm (Option.some_ne_none a)⟩
  all_goals
    cases h
    exact ⟨⟨rfl, rfl, rfl, (List.append_nil _).symm⟩, fun a _ h => absurd h Bool.false_ne_true⟩

/-- The steps of a run tell what it has changed. -/
theorem work_reflects {p : Job α} (hp : Careful d.target seen p)
    (hseen : seen → d.repository.current = some d.target) :
    Reflects (d.steps i passed p) d (d.work i passed p).desk := by
  -- `seen` says of each step whether the target branch has just been found to be checked out; no
  -- other job runs in between, so it still is.
  induction p generalizing d passed seen with
  | done a => exact .refl d
  | ask s next ih =>
    rw [steps, work]
    rcases hs : d.step i passed s with ⟨a | a | _, d', woken⟩
    · obtain ⟨hreflects, hsees⟩ := step_reflects hs fun hc => hseen (hp.1 hc)
      have hnext : Careful d'.target (sees d.target ⟨s, a⟩) (next a) := hreflects.target ▸ hp.2 a
      exact hreflects.trans (ih a hnext fun ha => hreflects.target ▸ hsees a rfl ha)
    · exact (step_reflects hs fun hc => hseen (hp.1 hc)).1
    · exact (step_reflects hs fun hc => hseen (hp.1 hc)).1

/-- A job that has to wait does not wait for an answer that would let it commit. -/
theorem careful_of_work {target : String} {p rest : Job α} (hp : Careful target seen p)
    (h : (d.work i passed p).halt = .waiting rest) : Careful target false rest := by
  induction p generalizing d passed seen with
  | done a => cases h
  | ask s next ih =>
    rw [work] at h
    rcases hs : d.step i passed s with ⟨a | a | _, d', woken⟩
    · rw [hs] at h
      exact ih a (hp.2 a) h
    · rw [hs] at h
      cases h
      obtain ⟨_ | _ | c | _⟩ | _ | _ | _ | _ | m := s
      case tree.acquire => exact hp.2 ()
      case tree.repository =>
        obtain ⟨gates, ⟨hstep, -⟩ | ⟨hstep, -⟩⟩ := step_call i passed c d <;>
          cases hstep.symm.trans hs
      all_goals cases hs
    · rw [hs] at h
      cases h
      refine ⟨?_, hp.2⟩
      rintro ⟨m, rfl⟩
      cases passed <;> cases hs

/-! ## How far a run comes -/

theorem step_aside (hs : s.isAside) (i : Nat) (passed : Bool) (d : Desk) : ∃ a d',
    d.step i passed s = (.answered a, d', none) ∧ d'.lock = d.lock ∧ d'.gates = d.gates := by
  obtain ⟨_ | _ | c | _⟩ | _ | _ | _ | _ | m := s
  case tree.acquire | tree.release | tree.repository => cases hs
  all_goals exact ⟨_, _, rfl, rfl, rfl⟩

/-- A run that has nothing to do with the working tree, up to the end of the job. -/
inductive Outcome.Aside (d : Desk) : Run α → Prop
  | ended {a : α} {d' : Desk} (hlock : d'.lock = d.lock) (hgate : d'.gates = d.gates) :
    Aside d ⟨.ended a, d', []⟩

/-- A run of a job that has the working tree. Either it gives the tree back and ends, or it has to
wait at the gate. -/
inductive Outcome.Inside (i : Nat) (d : Desk) : Run α → Prop
  | ended {a : α} {d' : Desk} (hlock : d'.lock = d.lock.release.2) (hgate : d'.atGate = d.atGate) :
    Inside i d ⟨.ended a, d', d.lock.release.1.toList⟩
  | held {rest : Job α} {d' : Desk} (hrest : rest.Keeps .inside) (hlock : d'.lock = d.lock)
    (hgate : d'.atGate = d.atGate ++ [i]) : Inside i d ⟨.waiting rest, d', []⟩

/-- A run of a job that has not asked for the working tree yet, with its steps. -/
inductive Outcome.Before (i : Nat) (d : Desk) (l : List Made) : Run α → Prop
  | aside {r : Run α} (hl : Job.commits l = []) : Outcome.Aside d r → Before i d l r
  | taken (d' : Desk) {r : Run α} (hfree : d.lock.held = false)
    (hlock : d'.lock = { d.lock with held := true }) (hgate : d'.gates = d.gates) :
    Outcome.Inside i d' r → Before i d l r
  | queued {rest : Job α} {d' : Desk} (hl : Job.commits l = []) (hrest : rest.Keeps .inside)
    (hheld : d.lock.held)
    (hlock : d'.lock = { d.lock with waiting := d.lock.waiting ++ [i] })
    (hgate : d'.gates = d.gates) : Before i d l ⟨.waiting rest, d', []⟩

theorem atGate_eq_of_gate (h : d'.gates = d.gates) : d'.atGate = d.atGate := by
  rw [atGate, h, atGate]

theorem Outcome.Aside.of_eq {r : Run α} (h : Aside d' r) (hlock : d'.lock = d.lock)
    (hgate : d'.gates = d.gates) : Aside d r := by
  cases h with
  | ended hlock' hgate' => exact .ended (hlock'.trans hlock) (hgate'.trans hgate)

/-- A job that gives the working tree back passes it on. -/
theorem Outcome.Aside.released {r : Run α} (h : Aside { d with lock := d.lock.release.2 } r) :
    Inside i d { r with woken := d.lock.release.1.toList ++ r.woken } := by
  cases h with
  | ended hlock hgate =>
    rw [List.append_nil]
    exact .ended hlock (atGate_eq_of_gate hgate)

theorem Outcome.Inside.of_eq {r : Run α} (h : Inside i d' r) (hlock : d'.lock = d.lock)
    (hgate : d'.atGate = d.atGate) : Inside i d r := by
  cases h with
  | ended hlock' hgate' => exact hlock ▸ .ended (hlock ▸ hlock') (hgate'.trans hgate)
  | held hrest hlock' hgate' => exact .held hrest (hlock'.trans hlock) (hgate ▸ hgate')

theorem Outcome.Before.of_eq {l l' : List Made} {r : Run α} (h : Before i d' l r)
    (hl : Job.commits l' = Job.commits l) (hlock : d'.lock = d.lock) (hgate : d'.gates = d.gates) :
    Before i d l' r := by
  cases h with
  | aside hl' h => exact .aside (hl.trans hl') (h.of_eq hlock hgate)
  | taken _ hfree hlock' hgate' h =>
    exact .taken _ (hlock ▸ hfree) (hlock ▸ hlock') (hgate'.trans hgate) h
  | queued hl' hrest hheld hlock' hgate' =>
    exact .queued (hl.trans hl') hrest (hlock ▸ hheld) (hlock ▸ hlock') (hgate'.trans hgate)

variable {next : s.Answer → Job α} {a : s.Answer}

theorem work_of_answered (h : d.step i passed s = (.answered a, d', none)) :
    d.work i passed (.ask s next) = d'.work i false (next a) := by
  rw [work, h]
  rfl

theorem steps_of_answered (h : d.step i passed s = (.answered a, d', woken)) :
    d.steps i passed (.ask s next) = ⟨s, a⟩ :: d'.steps i false (next a) := by
  rw [steps, h]

/-- A job that has let go of the working tree ends. -/
theorem work_after {p : Job α} (hp : p.Keeps .after) : Outcome.Aside d (d.work i passed p) := by
  induction p generalizing d passed with
  | done a => exact .ended rfl rfl
  | ask s next ih =>
    cases hp with
    | aside _ hs hnext =>
      obtain ⟨a, d', hstep, hlock, hgate⟩ := step_aside hs i passed d
      rw [work_of_answered hstep]
      exact (ih a (hnext a)).of_eq hlock hgate

theorem work_inside {p : Job α} (hp : p.Keeps .inside) :
    Outcome.Inside i d (d.work i passed p) := by
  induction p generalizing d passed with
  | done a => exact absurd rfl hp.of_done
  | ask s next ih =>
    cases hp with
    | @call c _ hnext =>
      obtain ⟨gates, ⟨hstep, hgate⟩ | ⟨hstep, hgate⟩⟩ := step_call i passed c d
      · rw [work_of_answered hstep]
        exact (ih _ (hnext _)).of_eq rfl hgate
      · rw [work, hstep]
        exact .held (.call hnext) rfl hgate
    | release hnext =>
      rw [work]
      exact (work_after hnext).released
    | aside hh _ _ => exact absurd rfl hh

theorem work_before {p : Job α} (hp : p.Keeps .before) :
    Outcome.Before i d (d.steps i passed p) (d.work i passed p) := by
  induction p generalizing d passed with
  | done a => exact .aside rfl (.ended rfl rfl)
  | ask s next ih =>
    cases hp with
    | acquire hnext =>
      rcases hl : d.lock.acquire i with ⟨_ | _, lock⟩
      · obtain ⟨hheld, rfl⟩ := TreeLock.of_acquire_false hl
        rw [work, steps, step, hl]
        exact .queued rfl hnext hheld rfl rfl
      · obtain ⟨hfree, rfl⟩ := TreeLock.of_acquire_true hl
        have hstep : d.step i passed (.tree .acquire) =
            (.answered (), { d with lock := { d.lock with held := true } }, none) := by
          rw [step, hl]
          rfl
        rw [work_of_answered hstep]
        exact .taken { d with lock := { d.lock with held := true } } hfree rfl rfl
          (work_inside hnext)
    | aside _ hs hnext =>
      obtain ⟨a, d', hstep, hlock, hgate⟩ := step_aside hs i passed d
      rw [work_of_answered hstep, steps_of_answered hstep]
      refine (ih a (hnext a)).of_eq ?_ hlock hgate
      rw [← List.singleton_append, commits_append]
      obtain ⟨_ | _ | c | _⟩ | _ | _ | _ | _ | m := s
      case tree.acquire | tree.release | tree.repository => cases hs
      all_goals rfl

end Desk
end PublishDesk
