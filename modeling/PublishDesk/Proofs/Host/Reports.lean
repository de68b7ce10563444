import PublishDesk.Proofs.Host.Inquiries

/-!
# What a report says of the worker

A report says whether the worker is up, and shows the worker. It is told the first when it begins,
and the second at its end, after its status read. So the two agree if and only if the worker is up
at both times or at neither (`WorkerHost.Run.reported`). In between the report may have to wait for
the working tree, and the worker may come up (`WorkerHost.exists_report_not_agrees`).
-/

namespace PublishDesk

open Job (Made)

/-- What the report says of the worker and what it shows of it agree. -/
def StatusReport.Agrees (r : StatusReport) : Prop :=
  r.status.serverActive ↔ ∃ w, r.worker = some w ∧ w.status = .running

theorem StatusReport.agrees_iff {r : StatusReport} {worker : Option Supervisor}
    (h : r.worker = worker.map Supervisor.snapshot) :
    r.Agrees ↔ r.status.serverActive = worker.any Supervisor.isRunning := by
  have hshown : (∃ w, r.worker = some w ∧ w.status = .running) ↔
      worker.any Supervisor.isRunning = true := by
    rw [h]
    cases worker <;> simp [Supervisor.snapshot, Supervisor.isRunning]
  rw [Agrees, hshown]
  exact Bool.eq_iff_iff.symm

namespace WorkerHost

variable {target : String} {first : Option Supervision} {l mid : List Event} {x : WorkerHost}
  {i : Nat}

theorem any_isRunning_foldl {worker : Option Supervisor} {up : Bool}
    (hworker : worker.any Supervisor.isRunning = up)
    (hmid : ∀ s, .supervised s ∈ mid → s.isRunning = up) :
    (mid.foldl Event.worker worker).any Supervisor.isRunning = up := by
  induction mid generalizing worker with
  | nil => exact hworker
  | cons e mid ih =>
    refine ih ?_ fun s hs => hmid s (List.mem_cons_of_mem _ hs)
    cases e with
    | supervised s => exact hmid s List.mem_cons_self
    | started | noted => exact hworker

theorem exists_split_of_stepsIn {a b : Made} {steps : List Made}
    (h : stepsIn l i = a :: (steps ++ [b])) : ∃ pre mid post,
      l = pre ++ .noted i (.met a) :: mid ++ .noted i (.met b) :: post ∧
        stepsIn pre i = [] ∧ stepsIn post i = [] := by
  obtain ⟨pre, e, l₁, rfl, hpre, he, h₁⟩ := List.filterMap_eq_cons_iff.1 h
  obtain ⟨l₂, l₃, rfl, -, h₃⟩ := List.filterMap_eq_append_iff.1 h₁
  obtain ⟨l₄, e', post, rfl, -, he', hpost⟩ := List.filterMap_eq_cons_iff.1 h₃
  obtain rfl := Event.of_step? he
  obtain rfl := Event.of_step? he'
  exact ⟨pre, l₂ ++ l₄, post, by simp, List.filterMap_eq_nil_iff.2 hpre, hpost⟩

/-- The steps of a job that has ended with a report. -/
theorem Run.stepsIn_of_report (h : Run target first l x) {r : StatusReport}
    (hdone : x.crowd.jobs[i]? = some (.ready (.done (some r)))) : ∃ steps,
      stepsIn l i = ⟨.workerUp, r.status.serverActive⟩ :: (steps ++ [⟨.worker, r.worker⟩]) := by
  obtain ⟨d, hd⟩ := h.exists_duty_of_job hdone
  obtain ⟨s, hs, hleads⟩ := h.exists_leads hd
  cases hs.symm.trans hdone
  obtain ⟨up, branch, reviews, found, link, tail, -, hends, hsteps⟩ :=
    Duty.transcript_job (h.isInquiry_of_report hd hdone) (hleads.transcript .done)
  rw [List.append_nil] at hsteps
  cases hends with
  | report shown =>
    refine ⟨(Job.reading up branch).tail ++
      (Job.looking target reviews ++ [⟨.updateLink found, link⟩]), ?_⟩
    rw [hsteps]
    simp [Job.reading]

theorem workerAfter_noted (first : Option Supervision) (pre mid : List Event) (i : Nat) (m : Mark) :
    workerAfter first (pre ++ .noted i m :: mid) = workerAfter first (pre ++ mid) := by
  rw [workerAfter_append, workerAfter_append]
  rfl

/-- How a job has made its report: after the events `pre` it has begun, and before the events `post`
it has ended. -/
structure Reported (first : Option Supervision) (i : Nat) (r : StatusReport)
    (l pre mid post : List Event) : Prop where
  split : l = pre ++ .noted i (.met ⟨.workerUp, r.status.serverActive⟩) :: mid ++
    .noted i (.met ⟨.worker, r.worker⟩) :: post
  begins : stepsIn pre i = []
  ends : stepsIn post i = []
  /-- It says whether the worker is up when it begins. -/
  serverActive : r.status.serverActive = (workerAfter first pre).any Supervisor.isRunning
  /-- It shows the worker as it is at the end. -/
  worker : r.worker = (workerAfter first (pre ++ mid)).map Supervisor.snapshot
  agrees_iff : r.Agrees ↔ (workerAfter first pre).any Supervisor.isRunning =
    (workerAfter first (pre ++ mid)).any Supervisor.isRunning
  /-- So it agrees if the worker neither comes up nor goes down meanwhile. -/
  agrees : (∀ s, .supervised s ∈ mid → s.isRunning = r.status.serverActive) → r.Agrees

/-- A report says whether the worker is up when it begins, and shows the worker as it is when it
ends. It agrees with itself if and only if the worker is up at both times or at neither. -/
theorem Run.reported (h : Run target first l x) {r : StatusReport}
    (hdone : x.crowd.jobs[i]? = some (.ready (.done (some r)))) :
    ∃ pre mid post, Reported first i r l pre mid post := by
  obtain ⟨steps, hsteps⟩ := h.stepsIn_of_report hdone
  obtain ⟨pre, mid, post, rfl, hpre, hpost⟩ := exists_split_of_stepsIn hsteps
  have hup : r.status.serverActive = (workerAfter first pre).any Supervisor.isRunning :=
    h.told (List.append_assoc ..)
  have hworker : r.worker = (workerAfter first (pre ++ mid)).map Supervisor.snapshot := by
    rw [← workerAfter_noted]
    exact h.told rfl
  refine ⟨pre, mid, post, rfl, hpre, hpost, hup, hworker, ?_, fun hmid => ?_⟩
  · rw [StatusReport.agrees_iff hworker, hup]
  · rw [StatusReport.agrees_iff hworker, workerAfter_append]
    exact (any_isRunning_foldl hup.symm hmid).symm

/-- The supervision of a worker that has not been started. -/
def newSupervision : Supervision := { supervisor := { command := ["serve"], directory := [] } }

/-- The monitor makes a step; a worker that it spawns has the number 7. -/
theorem Run.monitor (h : Run target first l x) {v : Supervision} {s : Supervisor}
    (hv : x.supervision = some v) (hs : v.supervisor.monitor (.ok 7) = some s) :
    Run target first (l ++ [.supervised s]) { x with supervision := some { v with
      supervisor := s, workers := Supervision.follow v.supervisor s v.workers } } :=
  h.supervise hv (.monitor hs)

/-- The worker ends and is replaced while the report is made. -/
theorem reported_replaced : ∃ l x r, Run "updates" (some newSupervision) l x ∧
    x.crowd.jobs[0]? = some (.ready (.done (some r))) ∧
      r = ⟨⟨true, none⟩, some ⟨["serve"], [], .running, 1, some 7⟩⟩ ∧
        ∃ pre mid post, Reported (some newSupervision) 0 r l pre mid post := by
  have started : Run "updates" (some newSupervision) _ _ := Run.idle.supervise rfl .start
  have up := (((started.monitor rfl rfl).monitor rfl rfl).monitor rfl rfl).monitor rfl rfl
  have begun := (up.start .report).aside (i := 0) rfl rfl true rfl
  have taken := begun.work (i := 0) (.take rfl rfl) rfl trivial
  have ended := (taken.supervise rfl (.exit 0 (.code 1))).monitor rfl rfl
  have replaced := (((ended.monitor rfl rfl).monitor rfl rfl).monitor rfl rfl).monitor rfl rfl
  have unread := (replaced.work (i := 0) (.begin rfl) rfl trivial).work (i := 0)
    (.answered rfl (.error "detached")) rfl trivial
  have freed := unread.work (i := 0) (.free rfl rfl) rfl trivial
  have answered := freed.aside (i := 0) rfl rfl none rfl
  have reported := answered.aside (i := 0) rfl rfl
    (some ⟨["serve"], [], .running, 1, some 7⟩) rfl
  exact ⟨_, _, _, reported, rfl, rfl, reported.reported rfl⟩

/-- While a save has the working tree and a report waits for it, the worker comes up. -/
theorem exists_report_not_agrees : ∃ l x,
    Run "updates" (some newSupervision) l x ∧
      x.crowd.jobs[1]? = some (.ready (.done (some
        ⟨⟨false, none⟩, some ⟨["serve"], [], .running, 0, some 7⟩⟩))) ∧
      ¬ StatusReport.Agrees ⟨⟨false, none⟩, some ⟨["serve"], [], .running, 0, some 7⟩⟩ := by
  have asked : Run "updates" (some newSupervision) _ _ :=
    (Run.idle.start (.save "Notes")).start .report
  have saving := (asked.work (i := 0) (.take rfl rfl) rfl trivial).work (i := 0) (.begin rfl) rfl
    trivial
  have waiting := (saving.aside (i := 1) rfl rfl false rfl).work (i := 1) (.wait rfl rfl) rfl
    trivial
  have started := waiting.supervise rfl .start
  have up := ((started.monitor rfl rfl).monitor rfl rfl).monitor rfl rfl
  have committing := (up.work (i := 0) (.answered rfl (.ok "updates")) rfl trivial).work (i := 0)
    (.begin rfl) rfl trivial
  have saved := committing.work (i := 0) (.answered rfl (.ok CommitOutcome.nothingToCommit)) rfl
    trivial
  have passed := saved.work (i := 0) (.pass rfl rfl) rfl trivial
  have read := (passed.work (i := 1) (.begin rfl) rfl trivial).work (i := 1)
    (.answered rfl (.ok "updates")) rfl trivial
  have looked := (read.work (i := 1) (.free rfl rfl) rfl trivial).aside (i := 1) rfl rfl (.ok none)
    trivial
  have answered := looked.aside (i := 1) rfl rfl none rfl
  have reported := answered.aside (i := 1) rfl rfl
    (some ⟨["serve"], [], .running, 0, some 7⟩) rfl
  exact ⟨_, _, reported, rfl, fun h => nomatch h.2 ⟨_, rfl, rfl⟩⟩

end WorkerHost
end PublishDesk
