import PublishDesk.Proofs.Host.Line

/-!
# What becomes of save requests

The host starts a job for each save request. `HostCrew.Serves` is the invariant: it relates the
requests, the steps that the jobs have made, the jobs that are left, and the commits in the
repository. A request is answered once, when its job ends, and what is committed is committed in the
order of the requests, on the target branch and with the message of the request.
-/

namespace PublishDesk

open Job

namespace Program

variable {Q : Type} {A : Q → Type} {α : Type}

theorem Leads.trans {p p' p'' : Program Q A α} {l l' : List (Exchange Q A)} (h : p.Leads l p')
    (h' : p'.Leads l' p'') : p.Leads (l ++ l') p'' := by
  induction h with
  | nil => exact h'
  | ask _ ih => exact .ask (ih h')

end Program

/-! ## The steps of all jobs -/

/-- The steps of one job. -/
def stepsOf (log : List (Nat × Made)) (number : Nat) : List Made :=
  (log.filter (·.1 == number)).map (·.2)

/-- The commits that have been made, each with its message and the number of the job. -/
def commitsIn (log : List (Nat × Made)) : List (Nat × String) :=
  log.filterMap fun e => (committed? e.2).map (e.1, ·)

section

variable {log : List (Nat × Made)} {i n : Nat} {m : String}

theorem stepsOf_append_self (log : List (Nat × Made)) (i : Nat) (steps : List Made) :
    stepsOf (log ++ steps.map (i, ·)) i = stepsOf log i ++ steps := by
  have hself : (steps.map (i, ·)).filter (·.1 == i) = steps.map (i, ·) := by
    refine List.filter_eq_self.2 fun e he => ?_
    obtain ⟨s, -, rfl⟩ := List.mem_map.1 he
    exact beq_self_eq_true i
  rw [stepsOf, List.filter_append, hself, List.map_append, List.map_map]
  exact congrArg _ (List.map_id steps)

theorem stepsOf_append_of_ne (h : n ≠ i) (steps : List Made) :
    stepsOf (log ++ steps.map (i, ·)) n = stepsOf log n := by
  have hnone : (steps.map (i, ·)).filter (·.1 == n) = [] := by
    refine List.filter_eq_nil_iff.2 fun e he => ?_
    obtain ⟨s, -, rfl⟩ := List.mem_map.1 he
    simpa using h.symm
  rw [stepsOf, List.filter_append, hnone, List.append_nil, stepsOf]

theorem commitsIn_append (log : List (Nat × Made)) (i : Nat) (steps : List Made) :
    commitsIn (log ++ steps.map (i, ·)) = commitsIn log ++ (commits steps).map (i, ·) := by
  rw [commitsIn, List.filterMap_append, List.filterMap_map, commits, List.map_filterMap]
  rfl

theorem mem_commits_of_mem_commitsIn (h : (i, m) ∈ commitsIn log) :
    m ∈ commits (stepsOf log i) := by
  obtain ⟨⟨j, s⟩, hmem, hs⟩ := List.mem_filterMap.1 h
  obtain ⟨m', hm', heq⟩ := Option.map_eq_some_iff.1 hs
  cases heq
  have hmem : (j, s) ∈ log.filter (·.1 == j) := List.mem_filter.2 ⟨hmem, beq_self_eq_true j⟩
  exact List.mem_filterMap.2 ⟨s, List.mem_map_of_mem hmem, hm'⟩

end

namespace HostCrew

/-- What a job is for, given the requests with the numbers of the jobs started for them. -/
inductive IsFor (target : String) (requests : List (Nat × String)) (number : Nat) : Job Unit → Prop
  | save {message : String} (h : (number, message) ∈ requests) :
    IsFor target requests number (Job.save target message)
  | poll (h : number ∉ requests.map (·.1)) : IsFor target requests number (Job.poll target)

variable {target : String} {requests : List (Nat × String)} {number : Nat} {job : Job Unit}
  {l l' : List Made} {p : Job Unit}

/-- A job reports when it ends, if it has been started for a request. -/
theorem IsFor.reports_of_leads (h : IsFor target requests number job) (hl : job.Leads l p)
    (hp : p ≠ .done ()) : reports (posts l) = 0 := by
  cases h with
  | save _ => exact reports_of_leads_save hl hp
  | poll _ => exact reports_of_leads_poll hl

theorem IsFor.reports_of_ended (h : IsFor target requests number job)
    (hl : job.Leads l (.done ())) :
    reports (posts l) = (decide (number ∈ requests.map (·.1))).toNat := by
  cases h with
  | save h =>
    have hmem : number ∈ requests.map (·.1) := List.mem_map_of_mem h
    have htranscript := hl.transcript .done
    rw [List.append_nil] at htranscript
    rw [reports_of_transcript htranscript, decide_eq_true hmem]
    rfl
  | poll h =>
    rw [reports_of_leads_poll hl, decide_eq_false h]
    rfl

/-- What a turn posts, given what the job has done before and how it has come to a halt. -/
theorem IsFor.reports_of_halt (h : IsFor target requests number job) (hl : job.Leads l p)
    (hp : p ≠ .done ()) {halt : Desk.Halt Unit} {ended : Bool}
    (hl' : job.Leads (l ++ l') halt.rest) (hhalt : halt.Fits ended) :
    reports (posts l') = (ended && decide (number ∈ requests.map (·.1))).toNat := by
  have hold := h.reports_of_leads hl hp
  cases halt with
  | ended u =>
    obtain rfl : ended = true := hhalt
    have hall := h.reports_of_ended hl'
    rwa [posts_append, reports_append, hold, Nat.zero_add] at hall
  | waiting rest =>
    obtain ⟨rfl, hinside⟩ : ended = false ∧ rest.Keeps .inside := hhalt
    have hrest : rest ≠ .done () := by
      rintro rfl
      exact absurd rfl hinside.of_done
    have hall := h.reports_of_leads hl' hrest
    rwa [posts_append, reports_append, hold, Nat.zero_add] at hall

theorem IsFor.isAnswer (h : IsFor target requests number job) (hl : job.Leads l p) :
    ∀ m ∈ posts l, m.isAnswer := by
  cases h with
  | save _ => exact isAnswer_of_leads_save hl
  | poll _ => exact isAnswer_of_leads_poll hl

/-- A job that commits carries out a request, with its message, and has not committed before. -/
theorem IsFor.commits_of_leads (h : IsFor target requests number job) (hl : job.Leads (l ++ l') p)
    (hl' : commits l' ≠ []) :
    ∃ m, (number, m) ∈ requests ∧ commits l = [] ∧ commits l' = [m] := by
  cases h with
  | @save m h =>
    have hcommits := commits_of_leads_save hl
    rw [commits_append] at hcommits
    obtain ⟨rest, hrest⟩ := hcommits
    cases hold : commits l with
    | nil =>
      rw [hold, List.nil_append] at hrest
      obtain ⟨m', tail, htail⟩ := List.exists_cons_of_ne_nil hl'
      rw [htail] at hrest
      obtain ⟨rfl, hnil⟩ := List.cons.inj hrest
      obtain ⟨rfl, -⟩ := List.append_eq_nil_iff.1 hnil
      exact ⟨m', h, rfl, htail⟩
    | cons m' tail =>
      rw [hold] at hrest
      have hnil := (List.cons.inj hrest).2
      simp [hl'] at hnil
  | poll h =>
    have hcommits := commits_of_leads_poll hl
    rw [commits_append] at hcommits
    exact absurd (List.append_eq_nil_iff.1 hcommits).2 hl'

/-! ## The invariant -/

/-- The host has made the steps of `log` for the requests, from a repository with the commits
`earlier` on. -/
structure Serves (target : String) (earlier : List (String × String))
    (requests : List (Nat × String)) (log : List (Nat × Made)) (l : Line) (c : HostCrew) :
    Prop where
  line : c.InLine l
  target_eq : c.desk.target = target
  numbered : requests.Pairwise (·.1 < ·.1)
  known : ∀ e ∈ requests, e.1 < c.started
  logged : ∀ e ∈ log, e.1 < c.started
  jobs : ∀ t ∈ c.tasks, t.rest ≠ .done () ∧ Careful target false t.rest ∧
    ∃ job, IsFor target requests t.number job ∧ job.Leads (stepsOf log t.number) t.rest
  commits : c.desk.repository.commits = earlier ++ (commitsIn log).map (target, ·.2)
  requested : ∀ e ∈ commitsIn log, e ∈ requests
  ordered : (commitsIn log).Pairwise (·.1 < ·.1)
  /-- No job has committed that is behind another one in the line. -/
  ahead : ∀ e ∈ commitsIn log, ∀ n ∈ l.all, e.1 < n ∨ e.1 = n ∧ l.holder = some n
  reported : requests.length =
    reports (posts (log.map (·.2))) + l.all.countP (· ∈ requests.map (·.1))

variable {earlier : List (String × String)} {log : List (Nat × Made)} {l l' : Line}
  {c c' : HostCrew}

theorem Serves.empty {d : Desk} (htarget : d.target = target) (hlock : d.lock = {})
    (hgate : d.gates = []) : Serves target d.repository.commits [] [] {} { desk := d } where
  line := .empty hlock hgate
  target_eq := htarget
  numbered := .nil
  known _ he := absurd he List.not_mem_nil
  logged _ he := absurd he List.not_mem_nil
  jobs _ ht := absurd ht List.not_mem_nil
  commits := (List.append_nil _).symm
  requested _ he := absurd he List.not_mem_nil
  ordered := .nil
  ahead _ he := absurd he List.not_mem_nil
  reported := rfl

/-! ## Turns -/

section

variable {i : Nat} {steps : List Made} {ended : Bool} {r : Desk.Run Unit} {rest : Job Unit}

/-- What a job commits in its turn is what it has been asked for. -/
theorem Serves.requested_append (H : Serves target earlier requests log l c)
    (hjob : IsFor target requests i job) (hleads : job.Leads (stepsOf log i ++ steps) rest) :
    ∀ e ∈ commitsIn (log ++ steps.map (i, ·)), e ∈ requests := by
  intro e he
  rw [commitsIn_append, List.mem_append] at he
  obtain he | he := he
  · exact H.requested e he
  · obtain ⟨m, hm, rfl⟩ := List.mem_map.1 he
    obtain ⟨m', hm', -, hcommits⟩ := hjob.commits_of_leads hleads (List.ne_nil_of_mem hm)
    rw [hcommits] at hm
    exact List.mem_singleton.1 hm ▸ hm'

theorem Serves.ordered_append (H : Serves target earlier requests log l c) (hi : i ∈ l.all)
    (hjob : IsFor target requests i job) (hleads : job.Leads (stepsOf log i ++ steps) rest) :
    (commitsIn (log ++ steps.map (i, ·))).Pairwise (·.1 < ·.1) := by
  rw [commitsIn_append]
  by_cases hnone : Job.commits steps = []
  · rw [hnone, List.map_nil, List.append_nil]
    exact H.ordered
  · obtain ⟨m, -, hold, hcommits⟩ := hjob.commits_of_leads hleads hnone
    rw [hcommits]
    refine List.pairwise_append.2 ⟨H.ordered, List.pairwise_singleton .., fun e he e' he' => ?_⟩
    obtain rfl := List.mem_singleton.1 he'
    -- The job is still in line, so those that have committed are ahead of it, or it is one of
    -- them; but it has not committed before.
    obtain hlt | ⟨heq, -⟩ := H.ahead e he _ hi
    · exact hlt
    · have hmem := mem_commits_of_mem_commitsIn (show (e.1, e.2) ∈ commitsIn log from he)
      rw [heq, hold] at hmem
      cases hmem

theorem Serves.ahead_append (H : Serves target earlier requests log l c)
    (h : l.Goes i steps ended l') : ∀ e ∈ commitsIn (log ++ steps.map (i, ·)), ∀ n ∈ l'.all,
      e.1 < n ∨ e.1 = n ∧ l'.holder = some n := by
  have hnodup := H.line.nodup
  intro e he n hn
  rw [commitsIn_append, List.mem_append] at he
  obtain he | he := he
  · exact (H.ahead e he n ((h.sublist hnodup).subset hn)).imp_right fun hhold =>
      ⟨hhold.1, h.holder hnodup hn hhold.2⟩
  · obtain ⟨m, hm, rfl⟩ := List.mem_map.1 he
    exact h.ahead H.line.increasing (List.ne_nil_of_mem hm) hn

/-- A job that leaves the line reports, if there has been a request for it. -/
theorem Serves.reported_append (H : Serves target earlier requests log l c)
    (h : l.Goes i steps ended l') (hjob : IsFor target requests i job)
    (hold : job.Leads (stepsOf log i) rest) (hrest : rest ≠ .done ()) {halt : Desk.Halt Unit}
    (hleads : job.Leads (stepsOf log i ++ steps) halt.rest) (hhalt : halt.Fits ended) :
    requests.length = reports (posts ((log ++ steps.map (i, ·)).map (·.2))) +
      l'.all.countP (· ∈ requests.map (·.1)) := by
  have hposts : posts ((log ++ steps.map (i, ·)).map (·.2)) =
      posts (log.map (·.2)) ++ posts steps := by
    rw [List.map_append, posts_append, List.map_map]
    exact congrArg _ (congrArg posts (List.map_id steps))
  rw [hposts, reports_append, hjob.reports_of_halt hold hrest hleads hhalt, H.reported,
    h.countP H.line.nodup]
  omega

end

theorem Serves.record (H : Serves target earlier requests log l c) {t : Task Unit}
    (ht : t ∈ c.tasks) {ready : List Nat} (hready : c.ready = t.number :: ready) {ended : Bool}
    {steps : List Made} (hsteps : steps = c.desk.steps t.number t.passed t.rest)
    {r : Desk.Run Unit} (hr : r = c.desk.work t.number t.passed t.rest)
    (h : Crew.Moved t.number steps c r ended l l') :
    Serves target earlier requests (log ++ steps.map (t.number, ·)) l'
      { Crew.record t.number r { c with ready := ready } with ready := ready ++ r.woken } := by
  obtain ⟨hrest, hcareful, job, hjob, hleads⟩ := H.jobs t ht
  have hleads' : job.Leads (stepsOf log t.number ++ steps) r.halt.rest := by
    rw [hsteps, hr]
    exact hleads.trans (Desk.leads_steps ..)
  have hcareful : Careful c.desk.target false t.rest := H.target_eq ▸ hcareful
  have hreflects : Desk.Reflects steps c.desk r.desk := by
    rw [hsteps, hr]
    exact Desk.work_reflects hcareful nofun
  constructor
  case line => exact H.line.record hready h
  case target_eq => rw [Crew.record_desk, hreflects.target, H.target_eq]
  case numbered => exact H.numbered
  case known =>
    intro e he
    dsimp only
    rw [Crew.record_started]
    exact H.known e he
  case logged =>
    intro e he
    dsimp only
    rw [Crew.record_started]
    obtain he | he := List.mem_append.1 he
    · exact H.logged e he
    · obtain ⟨s, -, rfl⟩ := List.mem_map.1 he
      exact H.line.known _ (List.mem_append_right _ h.goes.mem_all)
  case jobs =>
    intro u hu
    obtain ⟨hu, hne⟩ | ⟨hu, hhalt⟩ := Crew.mem_record_tasks hu
    · rw [stepsOf_append_of_ne hne]
      exact H.jobs u hu
    · have hinside := h.halt
      rw [hhalt] at hinside hleads'
      rw [hu, stepsOf_append_self]
      refine ⟨fun hdone => ?_, ?_, job, hjob, hleads'⟩
      · rw [hdone] at hinside
        exact absurd rfl hinside.2.of_done
      · rw [hr] at hhalt
        exact H.target_eq ▸ Desk.careful_of_work hcareful hhalt
  case commits =>
    rw [Crew.record_desk, hreflects.commits, H.commits, commitsIn_append, List.map_append,
      List.map_map, H.target_eq, List.append_assoc]
    rfl
  case requested => exact H.requested_append hjob hleads'
  case ordered => exact H.ordered_append h.goes.mem_all hjob hleads'
  case ahead => exact H.ahead_append h.goes
  case reported => exact H.reported_append h.goes hjob hleads hrest hleads' h.halt

theorem Serves.turn (H : Serves target earlier requests log l c) (h : c.turn? = some c') :
    ∃ l', Serves target earlier requests (log ++ c.turnSteps) l' c' ∧
      Desk.Reflects (c.turnSteps.map (·.2)) c.desk c'.desk ∧
      ∀ m ∈ posts (c.turnSteps.map (·.2)), m.isAnswer := by
  obtain ⟨i, ready, hready, ⟨hi, hsteps, rfl⟩ | ⟨t, ht, rfl, hsteps, rfl⟩⟩ := Crew.turn?_cases h
  · rw [hsteps, List.append_nil]
    exact ⟨l, { H with line := H.line.drop hready hi }, .refl _, nofun⟩
  · obtain ⟨ended, l', hmoved⟩ := H.line.moved ht hready
    obtain ⟨-, hcareful, job, hjob, hleads⟩ := H.jobs t ht
    have hcareful : Careful c.desk.target false t.rest := H.target_eq ▸ hcareful
    have hmap : ((c.desk.steps t.number t.passed t.rest).map (t.number, ·)).map (·.2) =
        c.desk.steps t.number t.passed t.rest := (List.map_map ..).trans (List.map_id _)
    rw [hsteps, Crew.record_desk, hmap]
    refine ⟨l', H.record ht hready rfl rfl hmoved, Desk.work_reflects hcareful nofun,
      fun m hm => ?_⟩
    have hleads' := hleads.trans (Desk.leads_steps t.number t.passed t.rest c.desk)
    exact hjob.isAnswer hleads' m (posts_append .. ▸ List.mem_append_right _ hm)

end HostCrew

/-- The steps of up to `fuel` turns. -/
def Crew.turnsSteps {α : Type} : (fuel : Nat) → Crew α → List (Nat × Made)
  | 0, _ => []
  | fuel + 1, c => match c.turn? with
    | none => []
    | some c' => c.turnSteps ++ turnsSteps fuel c'

/-- The steps of all turns until no job is ready. -/
def Crew.settleSteps {α : Type} (c : Crew α) : List (Nat × Made) :=
  c.turnsSteps (3 * c.tasks.length + c.ready.length)

namespace HostCrew

theorem Serves.turns (H : Serves target earlier requests log l c) (fuel : Nat) :
    ∃ l', Serves target earlier requests (log ++ c.turnsSteps fuel) l' (c.turns fuel) ∧
      Desk.Reflects ((c.turnsSteps fuel).map (·.2)) c.desk (c.turns fuel).desk ∧
      ∀ m ∈ posts ((c.turnsSteps fuel).map (·.2)), m.isAnswer := by
  induction fuel generalizing c log l with
  | zero =>
    rw [Crew.turnsSteps, Crew.turns, List.append_nil]
    exact ⟨l, H, .refl _, fun m hm => absurd hm List.not_mem_nil⟩
  | succ fuel ih =>
    rw [Crew.turnsSteps, Crew.turns]
    cases hturn : c.turn? with
    | none =>
      dsimp only
      rw [List.append_nil]
      exact ⟨l, H, .refl _, fun m hm => absurd hm List.not_mem_nil⟩
    | some c' =>
      obtain ⟨l₁, H₁, hreflects₁, hanswers₁⟩ := H.turn hturn
      obtain ⟨l₂, H₂, hreflects₂, hanswers₂⟩ := ih H₁
      dsimp only
      rw [← List.append_assoc, List.map_append, posts_append]
      exact ⟨l₂, H₂, hreflects₁.trans hreflects₂, fun m hm =>
        (List.mem_append.1 hm).elim (hanswers₁ m) (hanswers₂ m)⟩

theorem Serves.settle (H : Serves target earlier requests log l c) :
    ∃ l', Serves target earlier requests (log ++ c.settleSteps) l' c.settle ∧
      Desk.Reflects (c.settleSteps.map (·.2)) c.desk c.settle.desk ∧
      (∀ m ∈ posts (c.settleSteps.map (·.2)), m.isAnswer) ∧ c.settle.ready = [] := by
  obtain ⟨l', H', hreflects, hanswers⟩ := H.turns (3 * c.tasks.length + c.ready.length)
  exact ⟨l', H', hreflects, hanswers, H.line.ready_settle⟩

/-! ## What else happens to a host -/

/-- The job that is started for a request, or for a ping. -/
def jobFor (target : String) : (request : Option String) → Job Unit
  | none => Job.poll target
  | some message => Job.save target message

theorem keeps_jobFor (target : String) (request : Option String) :
    (jobFor target request).Keeps .before := by
  cases request with
  | none => exact Origin.keeps_job target .ping
  | some message => exact Origin.keeps_job target (.save 0 message)

theorem IsFor.append (h : IsFor target requests number job) {n : Nat} (hn : number ≠ n)
    (request : Option String) :
    IsFor target (requests ++ request.toList.map (n, ·)) number job := by
  cases h with
  | save h => exact .save (List.mem_append_left _ h)
  | poll h =>
    refine .poll fun hmem => ?_
    rw [List.map_append, List.mem_append] at hmem
    refine hmem.elim h fun hmem => ?_
    cases request with
    | none => cases hmem
    | some m => exact hn (List.mem_singleton.1 hmem)

theorem jobFor_ne_done (target : String) (request : Option String) :
    jobFor target request ≠ .done () := by
  cases request with
  | none => nofun
  | some message =>
    intro h
    unfold jobFor Job.save Workflow.save at h
    dsimp only at h
    split at h <;> cases h

theorem careful_jobFor (target : String) (request : Option String) :
    Careful target false (jobFor target request) := by
  cases request with
  | none => exact careful_poll target
  | some message => exact careful_save target message

section

variable {request : Option String}

theorem Serves.not_mem_requests (H : Serves target earlier requests log l c) :
    c.started ∉ requests.map (·.1) := by
  intro hmem
  obtain ⟨e, he, heq⟩ := List.mem_map.1 hmem
  exact absurd heq (Nat.ne_of_lt (H.known e he))

theorem Serves.ne_started (H : Serves target earlier requests log l c) {n : Nat}
    (hn : n ∈ l.all) : n ≠ c.started :=
  Nat.ne_of_lt (H.line.known n (List.mem_append_right _ hn))

/-- A job that is started is careful, and it is for the request that it is started for. -/
theorem Serves.jobs_start (H : Serves target earlier requests log l c) {t : Task Unit}
    (ht : t ∈ (c.start (jobFor target request)).tasks) :
    t.rest ≠ .done () ∧ Careful target false t.rest ∧
      ∃ job, IsFor target (requests ++ request.toList.map (c.started, ·)) t.number job ∧
        job.Leads (stepsOf log t.number) t.rest := by
  obtain ht | ht := List.mem_append.1 ht
  · obtain ⟨hrest, hcareful, job, hjob, hleads⟩ := H.jobs t ht
    have hne := H.ne_started (H.line.numbers ▸ List.mem_map_of_mem ht)
    exact ⟨hrest, hcareful, job, hjob.append hne request, hleads⟩
  · obtain rfl := List.mem_singleton.1 ht
    refine ⟨jobFor_ne_done target request, careful_jobFor target request, jobFor target request,
      ?_, ?_⟩
    · cases request with
      | none => exact .poll (by simpa using H.not_mem_requests)
      | some m => exact .save (by simp)
    · have hnone : stepsOf log c.started = [] := by
        simp only [stepsOf, List.map_eq_nil_iff, List.filter_eq_nil_iff, beq_iff_eq]
        exact fun e he => Nat.ne_of_lt (H.logged e he)
      rw [hnone]
      exact .nil

/-- A request is in line from its start on. -/
theorem Serves.reported_start (H : Serves target earlier requests log l c) :
    (requests ++ request.toList.map (c.started, ·)).length = reports (posts (log.map (·.2))) +
      (l.all ++ [c.started]).countP
        (· ∈ (requests ++ request.toList.map (c.started, ·)).map (·.1)) := by
  have hold : l.all.countP (· ∈ (requests ++ request.toList.map (c.started, ·)).map (·.1)) =
      l.all.countP (· ∈ requests.map (·.1)) := by
    refine List.countP_congr fun n hn => ?_
    rw [decide_eq_true_iff, decide_eq_true_iff, List.map_append, List.mem_append]
    refine ⟨fun h => h.resolve_right fun h => ?_, .inl⟩
    obtain ⟨e, he, rfl⟩ := List.mem_map.1 h
    obtain ⟨m, -, rfl⟩ := List.mem_map.1 he
    exact H.ne_started hn rfl
  rw [List.countP_append, hold, List.length_append, H.reported, ← Nat.add_assoc]
  cases request with
  | none => simp [H.not_mem_requests]
  | some m => simp

end

theorem Serves.start (H : Serves target earlier requests log l c) (request : Option String) :
    ∃ l', Serves target earlier (requests ++ request.toList.map (c.started, ·)) log l'
      (c.start (jobFor target request)) := by
  refine ⟨{ l with fresh := l.fresh ++ [c.started] }, ?_⟩
  have hline : ({ l with fresh := l.fresh ++ [c.started] } : Line).all = l.all ++ [c.started] :=
    (List.append_assoc ..).symm
  constructor
  case line => exact H.line.start (keeps_jobFor target request)
  case target_eq => exact H.target_eq
  case numbered =>
    cases request with
    | none => simpa using H.numbered
    | some m =>
      refine List.pairwise_append.2 ⟨H.numbered, List.pairwise_singleton .., fun e he e' he' => ?_⟩
      obtain rfl := List.mem_singleton.1 he'
      exact H.known e he
  case known =>
    intro e he
    obtain he | he := List.mem_append.1 he
    · exact Nat.lt_succ_of_lt (H.known e he)
    · obtain ⟨m, -, rfl⟩ := List.mem_map.1 he
      exact Nat.lt_succ_self _
  case logged => exact fun e he => Nat.lt_succ_of_lt (H.logged e he)
  case jobs => exact fun t ht => H.jobs_start ht
  case commits => exact H.commits
  case requested => exact fun e he => List.mem_append_left _ (H.requested e he)
  case ordered => exact H.ordered
  case ahead =>
    intro e he n hn
    rw [hline] at hn
    obtain hn | hn := List.mem_append.1 hn
    · exact H.ahead e he n hn
    · rw [List.mem_singleton.1 hn]
      exact .inl (H.known e (H.requested e he))
  case reported => exact hline ▸ H.reported_start

/-- The desk may change, but for the lock, the target and the commits. -/
theorem Serves.setDesk (H : Serves target earlier requests log l c) {d : Desk}
    (hlock : d.lock = c.desk.lock) (hgate : ∀ n ∈ d.atGate, n ∈ c.desk.atGate)
    (htarget : d.target = c.desk.target)
    (hcommits : d.repository.commits = c.desk.repository.commits) :
    Serves target earlier requests log l { c with desk := d } :=
  { H with
    line := H.line.setDesk hlock hgate
    target_eq := htarget.trans H.target_eq
    commits := hcommits.trans H.commits }

theorem Serves.holdPushes (H : Serves target earlier requests log l c) :
    Serves target earlier requests log l c.holdPushes :=
  { H with line := H.line.holdPushes }

theorem Serves.releasePush (H : Serves target earlier requests log l c) (gate : Nat) :
    Serves target earlier requests log l (c.releasePush gate) := by
  obtain ⟨gates, hdesk⟩ := Crew.releasePush_desk gate c
  obtain ⟨hstarted, -, -⟩ := Crew.releasePush_kept gate c
  refine { H with
    line := H.line.releasePush gate
    target_eq := (Crew.releasePush_target gate c).trans H.target_eq
    known := hstarted ▸ H.known
    logged := hstarted ▸ H.logged
    jobs := fun t ht => ?_
    commits := by rw [hdesk, H.commits] }
  obtain ⟨u, hu, hnumber, hrest⟩ := Crew.exists_of_mem_releasePush ht
  exact hnumber ▸ hrest ▸ H.jobs u hu

end HostCrew
end PublishDesk
