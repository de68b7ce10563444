import PublishDesk.Proofs.Host.CrewRuns
import PublishDesk.Proofs.Host.Descent
import PublishDesk.Proofs.Host.JobSteps
import PublishDesk.Proofs.Worker.Supervision

/-!
# A host and its worker

Pings, save requests and requests for a report come at any time, the jobs started for them make
their steps whenever they like, and meanwhile the worker is started, stopped and replaced.
`WorkerHost.Run` holds all runs of such a host. The repository and the look-ups of the open review
answer as they like. What a job asks of the host itself is answered from where the host stands then
(`Run.told`): whether the worker is up, what is to be shown of it, and which link to answer with.
All jobs can come to an end, whatever the answers are (`Run.finish`). What a crew does that takes
turns is among these runs (`Hosts.turn`).
-/

namespace PublishDesk

open Job (Made)

/-- What a job of a host is started for. -/
inductive Duty where
  | ping
  | save (message : String)
  /-- Somebody asks for the status and for the details of the worker. -/
  | report
deriving DecidableEq, Repr

/-- The job ends with a report if it is started for one. -/
def Duty.job (target : String) : Duty → Job (Option StatusReport)
  | .ping => (Job.poll target).map fun _ => none
  | .save message => (Job.save target message).map fun _ => none
  | .report => (Job.report target).map some

theorem Duty.keeps_job (target : String) (d : Duty) : (d.job target).Keeps .before := by
  cases d with
  | ping => exact (Origin.ping.keeps_job target).map _
  | save message => exact ((Origin.save 0 message).keeps_job target).map _
  | report =>
    refine Job.Keeps.map (Job.Keeps.bind ?_ fun h hh s => ?_) _
    · exact .aside (by decide) rfl fun up => (Job.keeps_status target).bind fun h hh s =>
        .aside hh rfl fun link => .done hh _
    · exact .aside hh rfl fun w => .done hh _

/-- What is asked of the host itself has the answer that it has now. -/
def Mark.Told (worker : Option Supervisor) (last : Option String) : Mark → Prop
  | .met ⟨.workerUp, up⟩ => up = worker.any Supervisor.isRunning
  | .met ⟨.worker, shown⟩ => shown = worker.map Supervisor.snapshot
  | .met ⟨.updateLink status, link⟩ => link = status.linkAfter last
  | _ => True

theorem Mark.told_of {s : Surroundings} {worker : Option Supervisor} {last : Option String}
    {m : Mark} (h : s.Told last m) (hworker : m.OfWorker worker) : m.Told worker last := by
  obtain c | ⟨q, a⟩ := m
  · trivial
  · cases q with
    | workerUp | worker => exact hworker
    | updateLink => exact h
    | endPoll | post => trivial
    | tree s => cases s <;> trivial

/-- A host whose jobs go on side by side, and the supervision of its worker if it has one. -/
structure WorkerHost where
  crowd : Crowd (Option StatusReport) := {}
  duties : List Duty := []
  /-- The link that was answered last. -/
  link : Option String := none
  supervision : Option Supervision := none

namespace WorkerHost

def worker (x : WorkerHost) : Option Supervisor := x.supervision.map (·.supervisor)

def start (target : String) (d : Duty) (x : WorkerHost) : WorkerHost :=
  { x with crowd := x.crowd.start (d.job target), duties := x.duties ++ [d] }

/-- The crowd has made a step, of which this is noted. -/
def note (c : Crowd (Option StatusReport)) (m : Mark) (x : WorkerHost) : WorkerHost :=
  { x with crowd := c, link := m.link x.link }

inductive Event where
  | started (d : Duty)
  | noted (number : Nat) (m : Mark)
  /-- The supervisor, or what it supervises, has made a step, and stands so then. -/
  | supervised (s : Supervisor)

/-- The runs of a host from the supervision of a worker, or without a worker. -/
inductive Run (target : String) (first : Option Supervision) : List Event → WorkerHost → Prop
  | idle : Run target first [] { supervision := first }
  | start {l : List Event} {x : WorkerHost} (h : Run target first l x) (d : Duty) :
    Run target first (l ++ [.started d]) (x.start target d)
  | work {l : List Event} {x : WorkerHost} {c : Crowd (Option StatusReport)} {i : Nat} {m : Mark}
    (h : Run target first l x) (hs : Crowd.Step i x.crowd c) (hm : c.log = x.crowd.log ++ [(i, m)])
    (ht : m.Told x.worker x.link) : Run target first (l ++ [.noted i m]) (x.note c m)
  | supervise {l : List Event} {x : WorkerHost} {v v' : Supervision} (h : Run target first l x)
    (hv : x.supervision = some v) (hs : v.Step v') :
    Run target first (l ++ [.supervised v'.supervisor]) { x with supervision := some v' }

/-! ## Readings of events -/

namespace Event

def mark? : Event → Option (Nat × Mark)
  | .noted i m => some (i, m)
  | _ => none

/-- The step of the job, if it has made one. -/
def step? (number : Nat) : Event → Option Made
  | .noted i (.met e) => if i = number then some e else none
  | .noted _ (.began _) | .started _ | .supervised _ => none

def worker (last : Option Supervisor) : Event → Option Supervisor
  | .supervised s => some s
  | _ => last

def link (last : Option String) : Event → Option String
  | .noted _ m => m.link last
  | _ => last

end Event

/-- The steps that a job has made. -/
def stepsIn (l : List Event) (i : Nat) : List Made := l.filterMap (Event.step? i)

theorem Event.of_step? {e : Event} {i : Nat} {step : Made} (h : e.step? i = some step) :
    e = .noted i (.met step) := by
  obtain _ | ⟨j, _ | step'⟩ | _ := e
  · cases h
  · cases h
  · obtain ⟨rfl, rfl⟩ : j = i ∧ step' = step := by simpa [step?] using h
    rfl
  · cases h

theorem mem_stepsIn_iff {l : List Event} {i : Nat} {step : Made} :
    step ∈ stepsIn l i ↔ .noted i (.met step) ∈ l := by
  constructor
  · intro h
    obtain ⟨e, hmem, he⟩ := List.mem_filterMap.1 h
    exact Event.of_step? he ▸ hmem
  · exact fun h => List.mem_filterMap.2 ⟨_, h, if_pos rfl⟩

/-- The worker after these events. -/
def workerAfter (first : Option Supervision) (l : List Event) : Option Supervisor :=
  l.foldl Event.worker (first.map (·.supervisor))

/-- The link that has been answered last. -/
def linkAfter (l : List Event) : Option String := l.foldl Event.link none

theorem concat_eq_append_cons {α : Type} {l pre post : List α} {e e' : α}
    (h : l ++ [e] = pre ++ e' :: post) :
    l = pre ∧ e = e' ∧ post = [] ∨ ∃ post', post = post' ++ [e] ∧ l = pre ++ e' :: post' := by
  obtain ⟨mid, rfl, hmid⟩ | ⟨mid, rfl, hmid⟩ := List.append_eq_append_iff.1 h
  · obtain ⟨rfl, hcons⟩ | ⟨-, hcons⟩ := List.singleton_eq_append_iff.1 hmid
    · cases hcons
      exact .inl ⟨(List.append_nil l).symm, rfl, rfl⟩
    · cases hcons
  · cases mid with
    | nil =>
      cases hmid
      exact .inl ⟨List.append_nil pre, rfl, rfl⟩
    | cons a post' =>
      obtain ⟨rfl, rfl⟩ := List.cons_eq_cons.1 hmid
      exact .inr ⟨post', rfl, rfl⟩

theorem workerAfter_append (first : Option Supervision) (l l' : List Event) :
    workerAfter first (l ++ l') = l'.foldl Event.worker (workerAfter first l) := List.foldl_append

theorem linkAfter_append (l l' : List Event) :
    linkAfter (l ++ l') = l'.foldl Event.link (linkAfter l) := List.foldl_append

theorem stepsOf_marksOf (l : List Event) (i : Nat) :
    Mark.stepsOf (Crowd.marksOf (l.filterMap Event.mark?) i) = stepsIn l i := by
  induction l with
  | nil => rfl
  | cons e l ih =>
    obtain d | ⟨j, m⟩ | s := e
    · exact ih
    · have hmark : (Event.noted j m :: l).filterMap Event.mark? =
          [(j, m)] ++ l.filterMap Event.mark? := rfl
      rw [hmark, Crowd.marksOf_append, Mark.stepsOf_append, ih, stepsIn, stepsIn]
      by_cases hj : j = i <;> cases m <;>
        simp [List.filterMap_cons, Event.step?, Crowd.marksOf, Mark.stepsOf, hj]
    · exact ih

/-! ## Runs -/

structure Sound (target : String) (first : Option Supervision) (l : List Event) (x : WorkerHost) :
    Prop where
  follows : Crowd.Follows (x.duties.map (·.job target)) x.crowd
  orderly : ∃ ledger, Crowd.Orderly x.crowd ledger
  log_eq : x.crowd.log = l.filterMap Event.mark?
  worker_eq : x.worker = workerAfter first l
  link_eq : x.link = linkAfter l

variable {target : String} {first : Option Supervision} {l pre post : List Event} {x : WorkerHost}
  {i : Nat} {d : Duty} {m : Mark}

theorem Run.aside (h : Run target first l x) {q : HostStep}
    {next : q.Answer → Job (Option StatusReport)}
    (hi : x.crowd.jobs[i]? = some (.ready (.ask q next))) (hq : q.isAside) (a : q.Answer)
    (ht : Mark.Told x.worker x.link (.met ⟨q, a⟩)) :
    Run target first (l ++ [.noted i (.met ⟨q, a⟩)])
      (x.note (x.crowd.put i (.ready (next a)) (.met ⟨q, a⟩)) (.met ⟨q, a⟩)) :=
  h.work (.aside hi hq a) rfl ht

theorem Run.sound (h : Run target first l x) : Sound target first l x := by
  induction h with
  | idle => exact ⟨.nil, ⟨_, .nil⟩, rfl, rfl, rfl⟩
  | @start l x h d ih =>
    obtain ⟨ledger, hl⟩ := ih.orderly
    refine ⟨?_, ⟨ledger, hl.start (d.keeps_job target)⟩, ?_, ?_, ?_⟩
    · rw [WorkerHost.start, List.map_append]
      exact ih.follows.start _
    · rw [List.filterMap_append]
      exact ih.log_eq.trans (List.append_nil _).symm
    · rw [workerAfter_append]
      exact ih.worker_eq
    · rw [linkAfter_append]
      exact ih.link_eq
  | @work l x c i m h hs hm ht ih =>
    obtain ⟨ledger, hl⟩ := ih.orderly
    refine ⟨ih.follows.step hs, hl.step hs, ?_, ?_, ?_⟩
    · rw [List.filterMap_append, ← ih.log_eq]
      exact hm
    · rw [workerAfter_append]
      exact ih.worker_eq
    · rw [linkAfter_append, ← ih.link_eq]
      rfl
  | supervise h hv hs ih =>
    refine ⟨ih.follows, ih.orderly, ?_, ?_, ?_⟩
    · rw [List.filterMap_append]
      exact ih.log_eq.trans (List.append_nil _).symm
    · rw [workerAfter_append]
      rfl
    · rw [linkAfter_append]
      exact ih.link_eq

/-- What a job has asked of the host has been answered from where the host stood then. -/
theorem Run.told (h : Run target first l x) (hl : l = pre ++ .noted i m :: post) :
    m.Told (workerAfter first pre) (linkAfter pre) := by
  induction h generalizing post with
  | idle => simp at hl
  | start h d ih =>
    obtain ⟨-, he, -⟩ | ⟨post, -, rfl⟩ := concat_eq_append_cons hl
    · cases he
    · exact ih rfl
  | work h hs hm ht ih =>
    obtain ⟨rfl, he, -⟩ | ⟨post, -, rfl⟩ := concat_eq_append_cons hl
    · cases he
      rw [← h.sound.worker_eq, ← h.sound.link_eq]
      exact ht
    · exact ih rfl
  | supervise h hv hs ih =>
    obtain ⟨-, he, -⟩ | ⟨post, -, rfl⟩ := concat_eq_append_cons hl
    · cases he
    · exact ih rfl

/-- Something is noted of jobs only. -/
theorem Run.exists_duty (h : Run target first l x) (hm : .noted i m ∈ l) :
    ∃ d, x.duties[i]? = some d := by
  have hlog : (i, m) ∈ x.crowd.log := h.sound.log_eq ▸ List.mem_filterMap.2 ⟨_, hm, rfl⟩
  have hlt := h.sound.follows.noted _ hlog
  rw [List.length_map] at hlt
  exact ⟨_, List.getElem?_eq_getElem hlt⟩

theorem Run.exists_duty_of_job (h : Run target first l x) {s : Standing (Option StatusReport)}
    (hs : x.crowd.jobs[i]? = some s) : ∃ d, x.duties[i]? = some d := by
  have hlt := (List.getElem?_eq_some_iff.1 hs).1
  rw [← h.sound.follows.length_eq, List.length_map] at hlt
  exact ⟨_, List.getElem?_eq_getElem hlt⟩

theorem Run.exists_leads (h : Run target first l x) (hd : x.duties[i]? = some d) :
    ∃ s, x.crowd.jobs[i]? = some s ∧ (d.job target).Leads (stepsIn l i) s.rest := by
  have hprogram : (x.duties.map (·.job target))[i]? = some (d.job target) := by
    rw [List.getElem?_map, hd]
    rfl
  obtain ⟨s, hs, hist⟩ := h.sound.follows.exists_history hprogram
  refine ⟨s, hs, ?_⟩
  rw [← stepsOf_marksOf, ← h.sound.log_eq]
  exact hist.leads

/-! ## All jobs come to an end -/

/-- The answers that the steps get now, given those of the repository and of the look-ups. -/
def answers (answer : (q : HostStep) → q.Answer) (x : WorkerHost) : (q : HostStep) → q.Answer
  | .workerUp => x.worker.any Supervisor.isRunning
  | .worker => x.worker.map Supervisor.snapshot
  | .updateLink status => status.linkAfter x.link
  | q => answer q

theorem told_of_isBy {answer : (q : HostStep) → q.Answer} (hm : m.IsBy (x.answers answer)) :
    m.Told x.worker x.link := by
  cases m with
  | began c => trivial
  | met e =>
    obtain ⟨q, a⟩ := e
    have ha := hm q a rfl
    cases q with
    | workerUp | worker | updateLink => exact ha
    | tree s =>
      cases s <;> trivial
    | endPoll | post => trivial

/-- The answers of the repository and of the look-ups are these. -/
def AnsweredBy (answer : (q : HostStep) → q.Answer) (m : Mark) : Prop :=
  ∀ s a, m = .met ⟨.tree s, a⟩ → a = answer (.tree s)

/-- If no more jobs are started, all jobs end, whatever the repository and the look-ups answer. -/
theorem Run.finish (answer : (q : HostStep) → q.Answer) (h : Run target first l x) :
    ∃ (marks : List (Nat × Mark)) (y : WorkerHost),
      Run target first (l ++ marks.map fun e => .noted e.1 e.2) y ∧ y.duties = x.duties ∧
        (∀ e ∈ marks, AnsweredBy answer e.2) ∧ ∀ s ∈ y.crowd.jobs, ∃ r, s = .ready (.done r) := by
  generalize hc : x.crowd = c
  induction c using Crowd.wellFounded_step.induction generalizing l x with
  | _ c ih =>
    subst hc
    by_cases hdone : ∀ s ∈ x.crowd.jobs, ∃ r, s = .ready (.done r)
    · exact ⟨[], x, by rwa [List.map_nil, List.append_nil], rfl, nofun, hdone⟩
    · push Not at hdone
      obtain ⟨s, hs, hnot⟩ := hdone
      obtain ⟨i, hi⟩ := List.getElem?_of_mem hs
      obtain ⟨ledger, hl⟩ := h.sound.orderly
      obtain ⟨j, c, ⟨hstep, m, hm, hby⟩, -⟩ := hl.progress (x.answers answer) hi hnot
      obtain ⟨marks, y, hrun, hduties, hanswered, hall⟩ :=
        ih c ⟨j, hstep⟩ (h.work hstep hm (told_of_isBy hby)) rfl
      refine ⟨(j, m) :: marks, y, ?_, hduties, List.forall_mem_cons.2 ⟨?_, hanswered⟩, hall⟩
      · rw [List.map_cons, List.append_cons]
        exact hrun
      · rintro s a rfl
        exact hby _ a rfl

/-! ## Jobs that take turns -/

/-- A crew whose desk has a worker stands as a host whose jobs go on side by side. -/
structure Hosts (target : String) (c : Crew (Option StatusReport)) (x : WorkerHost) : Prop where
  target_eq : c.desk.target = target
  crew : c.Matches x.crowd
  link_eq : c.desk.host.lastLink = x.link
  worker_eq : c.desk.worker = x.worker

variable {c c' : Crew (Option StatusReport)}

theorem Hosts.start (H : Hosts target c x) (d : Duty) :
    Hosts target (c.start (d.job target)) (x.start target d) :=
  ⟨H.target_eq, H.crew.start _, H.link_eq, H.worker_eq⟩

theorem Hosts.supervise (H : Hosts target c x) (v : Supervision) :
    Hosts target { c with desk := { c.desk with worker := some v.supervisor } }
      { x with supervision := some v } :=
  ⟨H.target_eq, H.crew.setDesk rfl rfl, H.link_eq, rfl⟩

/-- Steps of jobs that are told what a host is told are among its runs. -/
theorem Run.of_crowd (h : Run target first l x) {crowd : Crowd (Option StatusReport)}
    (hsteps : Relation.ReflTransGen (fun c c' => ∃ i, Crowd.Step i c c') x.crowd crowd) :
    ∃ marks, crowd.log = x.crowd.log ++ marks ∧
      ∀ last, Surroundings.Tells x.link (marks.map (·.2)) last →
        (∀ m ∈ marks.map (·.2), m.OfWorker x.worker) →
          Run target first (l ++ marks.map fun e => .noted e.1 e.2)
            { x with crowd := crowd, link := last } := by
  induction hsteps with
  | refl =>
    refine ⟨[], (List.append_nil _).symm, fun last htells _ => ?_⟩
    cases htells
    exact (List.append_nil l).symm ▸ h
  | tail _ hs ih =>
    obtain ⟨marks, hlog, hrun⟩ := ih
    obtain ⟨i, hs⟩ := hs
    obtain ⟨m, -, -, -, -, hm, -⟩ := hs.inv
    refine ⟨marks ++ [(i, m)], by rw [hm, hlog, List.append_assoc], fun last htells hworker => ?_⟩
    rw [List.map_append] at htells hworker
    obtain rfl := htells.eq_foldl
    obtain ⟨s, hbefore, htold⟩ := htells.of_concat
    have hnext := (hrun _ hbefore fun m hm => hworker m (List.mem_append_left _ hm)).work hs hm
      (Mark.told_of htold (hworker m (List.mem_append_right _ (List.mem_singleton_self m))))
    rw [List.map_append, ← List.append_assoc, List.foldl_append]
    exact hnext

/-- What a crew does in a turn, the host can do. -/
theorem Hosts.turn (H : Hosts target c x) (h : Run target first l x) (ht : c.turn? = some c') :
    ∃ (marks : List (Nat × Mark)) (y : WorkerHost),
      Run target first (l ++ marks.map fun e => .noted e.1 e.2) y ∧ Hosts target c' y := by
  obtain ⟨ledger, hl⟩ := h.sound.orderly
  obtain ⟨crowd, marks, hsteps, hlog, hcrew, hshows⟩ := H.crew.turn_shows hl ht
  obtain ⟨marks', hlog', hrun⟩ := h.of_crowd hsteps
  obtain rfl : marks' = marks := List.append_cancel_left (hlog'.symm.trans hlog)
  refine ⟨_, _, hrun _ (H.link_eq ▸ hshows.told) (H.worker_eq ▸ hshows.ofWorker), ?_⟩
  exact ⟨hshows.target.trans H.target_eq, hcrew, rfl, hshows.worker.trans H.worker_eq⟩

end WorkerHost
end PublishDesk
