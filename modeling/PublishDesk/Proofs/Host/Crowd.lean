import PublishDesk.Proofs.Host.TreeDiscipline

/-!
# Jobs side by side

The jobs of a crew take turns. In a crowd any job may make its next step at any time, a call to the
repository takes as long as it likes, and whatever is asked of others than the working tree is
answered in any way. `Crowd.Step` is one step of one job. What the jobs do is noted in a log, and
`Crowd.Follows` says that the log holds the history of each job: what one job does is a path through
its program (`Job.History.leads`), whatever the others do.
-/

namespace PublishDesk

variable {α : Type}

/-- Where a job of a crowd stands. -/
inductive Standing (α : Type) where
  /-- It makes its next step when it likes. -/
  | ready (rest : Job α)
  /-- It waits for the answer to a call. -/
  | calling (call : RepositoryCall) (next : call.Answer → Job α)
  /-- It waits for the working tree. -/
  | waiting (rest : Job α)

namespace Standing

def rest : Standing α → Job α
  | .ready rest | .waiting rest => rest
  | .calling c next => .ask (.tree (.repository c)) next

/-- Give the working tree to a job that waits for it. -/
def wake : Standing α → Standing α
  | .waiting rest => .ready rest
  | s => s

theorem rest_wake (s : Standing α) : s.wake.rest = s.rest := by cases s <;> rfl

end Standing

/-- What is noted of a job. -/
inductive Mark where
  /-- A call to the repository has begun. -/
  | began (call : RepositoryCall)
  /-- A step has its answer. Of the wait for the working tree only the beginning is noted. -/
  | met (step : Exchange HostStep HostStep.Answer)

/-- Where a job stands before something is noted of it, and where it stands then. -/
inductive Mark.Advances : Mark → Standing α → Standing α → Prop
  | began {r : RepositoryCall} {next : r.Answer → Job α} :
    Advances (.began r) (.ready (.ask (.tree (.repository r)) next)) (.calling r next)
  | returned {r : RepositoryCall} {next : r.Answer → Job α} (a : r.Answer) :
    Advances (.met ⟨.tree (.repository r), a⟩) (.calling r next) (.ready (next a))
  | queued {next : Unit → Job α} :
    Advances (.met ⟨.tree .acquire, ()⟩) (.ready (.ask (.tree .acquire) next)) (.waiting (next ()))
  | met {s : HostStep} {next : s.Answer → Job α} (hs : ∀ r, s ≠ .tree (.repository r))
    (a : s.Answer) : Advances (.met ⟨s, a⟩) (.ready (.ask s next)) (.ready (next a))

/-- Jobs that share a working tree and go on side by side. -/
structure Crowd (α : Type) where
  lock : TreeLock := {}
  /-- The jobs by their numbers. -/
  jobs : List (Standing α) := []
  /-- What has been noted, with the number of the job. -/
  log : List (Nat × Mark) := []

namespace Crowd

def start (job : Job α) (c : Crowd α) : Crowd α := { c with jobs := c.jobs ++ [.ready job] }

/-- Note something of a job, and where it stands then. -/
def put (number : Nat) (s : Standing α) (m : Mark) (c : Crowd α) : Crowd α :=
  { c with jobs := c.jobs.set number s, log := c.log ++ [(number, m)] }

def setLock (l : TreeLock) (c : Crowd α) : Crowd α := { c with lock := l }

/-- Give the working tree to a job. -/
def wake (number : Nat) (c : Crowd α) : Crowd α :=
  { c with jobs := c.jobs.modify number Standing.wake }

inductive Step (i : Nat) : Crowd α → Crowd α → Prop
  | take {c : Crowd α} {next : Unit → Job α} {l : TreeLock}
    (hi : c.jobs[i]? = some (.ready (.ask (.tree .acquire) next)))
    (hl : c.lock.acquire i = (true, l)) :
    Step i c ((c.put i (.ready (next ())) (.met ⟨.tree .acquire, ()⟩)).setLock l)
  | wait {c : Crowd α} {next : Unit → Job α} {l : TreeLock}
    (hi : c.jobs[i]? = some (.ready (.ask (.tree .acquire) next)))
    (hl : c.lock.acquire i = (false, l)) :
    Step i c ((c.put i (.waiting (next ())) (.met ⟨.tree .acquire, ()⟩)).setLock l)
  | free {c : Crowd α} {next : Unit → Job α} {l : TreeLock}
    (hi : c.jobs[i]? = some (.ready (.ask (.tree .release) next)))
    (hl : c.lock.release = (none, l)) :
    Step i c ((c.put i (.ready (next ())) (.met ⟨.tree .release, ()⟩)).setLock l)
  | pass {c : Crowd α} {next : Unit → Job α} {l : TreeLock} {j : Nat}
    (hi : c.jobs[i]? = some (.ready (.ask (.tree .release) next)))
    (hl : c.lock.release = (some j, l)) :
    Step i c (((c.put i (.ready (next ())) (.met ⟨.tree .release, ()⟩)).setLock l).wake j)
  | begin {c : Crowd α} {r : RepositoryCall} {next : r.Answer → Job α}
    (hi : c.jobs[i]? = some (.ready (.ask (.tree (.repository r)) next))) :
    Step i c (c.put i (.calling r next) (.began r))
  | answered {c : Crowd α} {r : RepositoryCall} {next : r.Answer → Job α}
    (hi : c.jobs[i]? = some (.calling r next)) (a : r.Answer) :
    Step i c (c.put i (.ready (next a)) (.met ⟨.tree (.repository r), a⟩))
  | aside {c : Crowd α} {s : HostStep} {next : s.Answer → Job α}
    (hi : c.jobs[i]? = some (.ready (.ask s next))) (hs : s.isAside) (a : s.Answer) :
    Step i c (c.put i (.ready (next a)) (.met ⟨s, a⟩))

/-! ## What a step changes -/

theorem getElem?_put_of_ne {i j : Nat} (h : i ≠ j) (c : Crowd α) (s : Standing α) (m : Mark) :
    (c.put i s m).jobs[j]? = c.jobs[j]? := List.getElem?_set_ne h

theorem getElem?_put_self {c : Crowd α} {i : Nat} {s : Standing α} (h : c.jobs[i]? = some s)
    (s' : Standing α) (m : Mark) : (c.put i s' m).jobs[i]? = some s' :=
  List.getElem?_set_self (List.getElem?_eq_some_iff.1 h).1

theorem getElem?_wake (c : Crowd α) (i j : Nat) :
    (c.wake i).jobs[j]? = c.jobs[j]? ∨ (c.wake i).jobs[j]? = c.jobs[j]?.map Standing.wake := by
  rw [wake, List.getElem?_modify]
  by_cases h : i = j
  · exact .inr (by simp [h])
  · exact .inl (by simp [h])

/-- A step of a job is noted, and all it does to the others is that it may wake them. -/
theorem Step.inv {i : Nat} {c c' : Crowd α} (h : Step i c c') :
    ∃ m s s', c.jobs[i]? = some s ∧ m.Advances s s' ∧ c'.log = c.log ++ [(i, m)] ∧
      c'.jobs.length = c.jobs.length ∧ ∀ j : Nat, c'.jobs[j]? = (c.put i s' m).jobs[j]? ∨
        c'.jobs[j]? = (c.put i s' m).jobs[j]?.map Standing.wake := by
  cases h with
  | take hi _ | free hi _ =>
    exact ⟨_, _, _, hi, .met (by nofun) (), rfl, List.length_set, fun _ => .inl rfl⟩
  | wait hi _ => exact ⟨_, _, _, hi, .queued, rfl, List.length_set, fun _ => .inl rfl⟩
  | @pass _ _ k hi _ =>
    exact ⟨_, _, _, hi, .met (by nofun) (), rfl, (List.length_modify ..).trans List.length_set,
      fun j => getElem?_wake _ k j⟩
  | begin hi => exact ⟨_, _, _, hi, .began, rfl, List.length_set, fun _ => .inl rfl⟩
  | answered hi a => exact ⟨_, _, _, hi, .returned a, rfl, List.length_set, fun _ => .inl rfl⟩
  | aside hi hs a =>
    refine ⟨_, _, _, hi, .met ?_ a, rfl, List.length_set, fun _ => .inl rfl⟩
    rintro r rfl
    cases hs

/-- A job that has ended makes no step, whatever the others do. -/
theorem Step.ne_of_done {i j : Nat} {c c' : Crowd α} {a : α} (h : Step i c c')
    (hj : c.jobs[j]? = some (.ready (.done a))) :
    i ≠ j ∧ c'.jobs[j]? = some (.ready (.done a)) := by
  obtain ⟨m, s, s', hi, hadv, -, -, hjobs⟩ := h.inv
  have hij : i ≠ j := by
    rintro rfl
    obtain rfl := Option.some.inj (hi.symm.trans hj)
    cases hadv
  have hput : (c.put i s' m).jobs[j]? = some (.ready (.done a)) := by
    rw [getElem?_put_of_ne hij, hj]
  refine ⟨hij, ?_⟩
  obtain hj' | hj' := hjobs j
  · rw [hj', hput]
  · rw [hj', hput]
    rfl

/-! ## The history of one job -/

/-- What has been noted of one job. -/
def marksOf (log : List (Nat × Mark)) (number : Nat) : List Mark :=
  (log.filter (·.1 == number)).map (·.2)

@[simp] theorem marksOf_append (l l' : List (Nat × Mark)) (i : Nat) :
    marksOf (l ++ l') i = marksOf l i ++ marksOf l' i := by
  simp [marksOf]

theorem marksOf_eq_nil {l : List (Nat × Mark)} {i : Nat} (h : ∀ e ∈ l, e.1 ≠ i) :
    marksOf l i = [] := by
  simpa [marksOf] using h

end Crowd

/-- How a job comes to stand where it does, given what has been noted of it. -/
inductive Job.History (p : Job α) : List Mark → Standing α → Prop
  | start : History p [] (.ready p)
  | note {l : List Mark} {m : Mark} {s s' : Standing α} :
    History p l s → m.Advances s s' → History p (l ++ [m]) s'
  | wake {l : List Mark} {s : Standing α} : History p l s → History p l s.wake

/-- The steps that have their answers. -/
def Mark.stepsOf (l : List Mark) : List (Exchange HostStep HostStep.Answer) :=
  l.filterMap fun
    | .met e => some e
    | .began _ => none

theorem Mark.mem_stepsOf_marksOf {log : List (Nat × Mark)} {i : Nat}
    {e : Exchange HostStep HostStep.Answer} :
    e ∈ Mark.stepsOf (Crowd.marksOf log i) ↔ (i, .met e) ∈ log := by
  simp only [Mark.stepsOf, Crowd.marksOf, List.mem_filterMap, List.mem_map, List.mem_filter,
    beq_iff_eq]
  constructor
  · rintro ⟨_, ⟨⟨j, m⟩, ⟨hm, rfl⟩, rfl⟩, he⟩
    cases m with
    | began _ => cases he
    | met _ => exact Option.some.inj he ▸ hm
  · exact fun h => ⟨.met e, ⟨_, ⟨h, rfl⟩, rfl⟩, rfl⟩

/-- The steps of a job are a path that leads from its program to what is left of it. -/
theorem Job.History.leads {p : Job α} {l : List Mark} {s : Standing α} (h : p.History l s) :
    p.Leads (Mark.stepsOf l) s.rest := by
  induction h with
  | start => exact .nil
  | @note l m s s' _ hadv ih =>
    rw [Mark.stepsOf, List.filterMap_append, ← Mark.stepsOf]
    cases hadv with
    | began =>
      rw [show List.filterMap _ [_] = [] from rfl, List.append_nil]
      exact ih
    | returned a => exact ih.snoc a
    | queued => exact ih.snoc ()
    | met _ a => exact ih.snoc a
  | wake _ ih => rwa [Standing.rest_wake]

namespace Crowd

/-- Every job has its history in the log. -/
structure Follows (programs : List (Job α)) (c : Crowd α) : Prop where
  length_eq : programs.length = c.jobs.length
  noted : ∀ e ∈ c.log, e.1 < programs.length
  history : ∀ (i : Nat) p s, programs[i]? = some p → c.jobs[i]? = some s →
    p.History (marksOf c.log i) s

namespace Follows

variable {programs : List (Job α)} {c c' : Crowd α} {i : Nat}

theorem nil : Follows [] ({} : Crowd α) where
  length_eq := rfl
  noted := nofun
  history _ _ _ h := nomatch h

theorem start (h : Follows programs c) (job : Job α) :
    Follows (programs ++ [job]) (c.start job) where
  length_eq := by simp [Crowd.start, h.length_eq]
  noted e he := by
    rw [List.length_append]
    exact Nat.lt_add_right _ (h.noted e he)
  history j p s hp hs := by
    rw [Crowd.start] at hs
    by_cases hj : j < programs.length
    · rw [List.getElem?_append_left hj] at hp
      rw [List.getElem?_append_left (h.length_eq ▸ hj)] at hs
      exact h.history j p s hp hs
    · have hlen : j < (programs ++ [job]).length := (List.getElem?_eq_some_iff.1 hp).1
      obtain rfl : j = programs.length := by simp at hlen; omega
      obtain rfl : job = p := by simpa using hp
      obtain rfl : .ready job = s := by simpa [h.length_eq] using hs
      have hnone : marksOf c.log programs.length = [] :=
        marksOf_eq_nil fun e he => Nat.ne_of_lt (h.noted e he)
      rw [show (c.start job).log = c.log from rfl, hnone]
      exact .start

theorem step (h : Follows programs c) (hs : Step i c c') : Follows programs c' := by
  obtain ⟨m, s, s', hi, hadv, hlog, hlen, hjobs⟩ := hs.inv
  have hlt : i < programs.length := h.length_eq ▸ (List.getElem?_eq_some_iff.1 hi).1
  refine ⟨h.length_eq.trans hlen.symm, fun e he => ?_, fun j p t hp ht => ?_⟩
  · rw [hlog, List.mem_append, List.mem_singleton] at he
    obtain he | rfl := he
    · exact h.noted e he
    · exact hlt
  · have hput (t : Standing α) (ht : (c.put i s' m).jobs[j]? = some t) :
        p.History (marksOf c'.log j) t := by
      rw [hlog, marksOf_append]
      by_cases hij : i = j
      · subst hij
        obtain rfl : s' = t := by simpa [getElem?_put_self hi] using ht
        simpa [marksOf] using (h.history i p s hp hi).note hadv
      · rw [getElem?_put_of_ne hij] at ht
        rw [marksOf_eq_nil (l := [(i, m)]) (by simpa using hij), List.append_nil]
        exact h.history j p t hp ht
    obtain hj | hj := hjobs j
    · exact hput t (hj ▸ ht)
    · obtain ⟨t, ht', rfl⟩ := Option.map_eq_some_iff.1 (hj ▸ ht)
      exact (hput t ht').wake

theorem exists_history (h : Follows programs c) {p : Job α} (hi : programs[i]? = some p) :
    ∃ s, c.jobs[i]? = some s ∧ p.History (marksOf c.log i) s := by
  have hlt : i < c.jobs.length := h.length_eq ▸ (List.getElem?_eq_some_iff.1 hi).1
  have hs := List.getElem?_eq_getElem hlt
  exact ⟨_, hs, h.history i p _ hi hs⟩

end Follows
end Crowd
end PublishDesk
