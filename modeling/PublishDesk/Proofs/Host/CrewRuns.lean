import PublishDesk.Proofs.Host.Serial
import PublishDesk.Proofs.Host.Surroundings

/-!
# What a crew does, a crowd can do

A crew lets one job run at a time, on a desk with a repository of its own and gates at which pushes
wait. All of this is among the runs of a crowd: `Crew.Matches` says that a crew and a crowd stand
alike, and each turn of the crew is a run of the crowd that keeps them so (`Crew.Matches.turn`). So
whatever holds of all crowds holds of the crew (`Crew.Run.reconciliation`).
-/

namespace PublishDesk

open Relation (ReflTransGen)

variable {α : Type}

/-- The message that has been posted, if any. -/
def Mark.posted? : Mark → Option Message
  | .met ⟨.post m, _⟩ => some m
  | _ => none

/-- What is told of the worker is true of this one. -/
def Mark.OfWorker (worker : Option Supervisor) : Mark → Prop
  | .met ⟨.workerUp, up⟩ => up = worker.any Supervisor.isRunning
  | .met ⟨.worker, shown⟩ => shown = worker.map Supervisor.snapshot
  | _ => True

/-- Whether a poll is under way after something has been noted. -/
def Mark.polling (before : Bool) : Mark → Bool
  | .met ⟨.endPoll, _⟩ => false
  | _ => before

namespace Crowd

variable {x x' x'' : Crowd α} {l : Ledger} {i j : Nat} {woken woken' : List Nat}
  {marks marks' : List Mark} {m : Mark} {s s' : Standing α}

theorem Orderly.waiting_of_mem (H : Orderly x l) (hj : j ∈ x.lock.waiting) :
    ∃ p, x.jobs[j]? = some (.waiting p) := by
  rw [H.waiting] at hj
  have hlt := H.known j (List.mem_append_right _ hj)
  have hfits := H.fits j _ (List.getElem?_eq_getElem hlt)
  rw [Ledger.place_of_mem_waiting H.nodup hj] at hfits
  generalize ht : x.jobs[j] = t at hfits
  cases t with
  | waiting p => exact ⟨p, ht ▸ List.getElem?_eq_getElem hlt⟩
  | ready | calling => exact hfits.elim

theorem Orderly.steps (H : Orderly x l) (h : ReflTransGen (Step i) x x') : ∃ l', Orderly x' l' := by
  induction h with
  | refl => exact ⟨l, H⟩
  | tail _ hs ih =>
    obtain ⟨l', H'⟩ := ih
    exact H'.step hs

/-- One job goes on by itself, wakes others, and comes to stand somewhere. -/
structure Stretch (i : Nat) (woken : List Nat) (marks : List Mark) (s : Standing α)
    (x x' : Crowd α) : Prop where
  steps : ReflTransGen (Step i) x x'
  log : x'.log = x.log ++ marks.map (i, ·)
  length : x'.jobs.length = x.jobs.length
  stands : x'.jobs[i]? = some s
  others : ∀ j, j ≠ i →
    x'.jobs[j]? = if j ∈ woken then x.jobs[j]?.map Standing.wake else x.jobs[j]?
  waited : ∀ j ∈ woken, j ≠ i ∧ ∃ p, x.jobs[j]? = some (.waiting p)
  nodup : woken.Nodup

theorem Stretch.refl (hi : x.jobs[i]? = some s) : Stretch i [] [] s x x where
  steps := .refl
  log := (List.append_nil _).symm
  length := rfl
  stands := hi
  others _ _ := (if_neg List.not_mem_nil).symm
  waited := nofun
  nodup := List.nodup_nil

theorem Stretch.trans (h : Stretch i woken marks s x x') (h' : Stretch i woken' marks' s' x' x'') :
    Stretch i (woken ++ woken') (marks ++ marks') s' x x'' := by
  -- A job that is woken later has waited all the time.
  have hwaited (j : Nat) (hj : j ∈ woken') :
      j ∉ woken ∧ j ≠ i ∧ ∃ p, x.jobs[j]? = some (.waiting p) := by
    obtain ⟨hji, p, hp⟩ := h'.waited j hj
    rw [h.others j hji] at hp
    split at hp
    · obtain ⟨s, -, hs⟩ := Option.map_eq_some_iff.1 hp
      cases s <;> cases hs
    · next hnot => exact ⟨hnot, hji, p, hp⟩
  refine ⟨h.steps.trans h'.steps, ?_, h'.length.trans h.length, h'.stands, fun j hj => ?_,
    fun j hj => ?_, ?_⟩
  · rw [h'.log, h.log, List.map_append, List.append_assoc]
  · rw [h'.others j hj, h.others j hj]
    by_cases hmem : j ∈ woken
    · rw [if_pos hmem, if_pos (List.mem_append_left _ hmem),
        if_neg fun hmem' => (hwaited j hmem').1 hmem]
    · rw [if_neg hmem]
      exact if_congr (by simp [hmem]) rfl rfl
  · obtain hj | hj := List.mem_append.1 hj
    · exact h.waited j hj
    · exact (hwaited j hj).2
  · refine List.nodup_append.2 ⟨h.nodup, h'.nodup, fun j hj k hk hjk => ?_⟩
    exact (hwaited k hk).1 (hjk ▸ hj)

theorem Stretch.ready (h : Stretch i woken marks s x x') {p : Job α} (hji : j ≠ i)
    (hj : x.jobs[j]? = some (.ready p)) : x'.jobs[j]? = some (.ready p) := by
  rw [h.others j hji, hj]
  split <;> rfl

theorem Stretch.waiting (h : Stretch i woken marks s x x') {p : Job α} (hji : j ≠ i)
    (hj : x.jobs[j]? = some (.waiting p)) :
    x'.jobs[j]? = some (.ready p) ∨ x'.jobs[j]? = some (.waiting p) := by
  rw [h.others j hji, hj]
  split
  · exact .inl rfl
  · exact .inr rfl

theorem Stretch.ready_of_woken (h : Stretch i woken marks s x x') (hj : j ∈ woken) :
    ∃ p, x'.jobs[j]? = some (.ready p) := by
  obtain ⟨hji, p, hp⟩ := h.waited j hj
  refine ⟨p, ?_⟩
  rw [h.others j hji, if_pos hj, hp]
  rfl

theorem Stretch.done (h : Stretch i woken marks s x x') {a : α}
    (hj : x.jobs[j]? = some (.ready (.done a))) : x'.jobs[j]? = some (.ready (.done a)) := by
  have hsteps := h.steps
  clear h
  induction hsteps with
  | refl => exact hj
  | tail _ hs ih => exact (hs.ne_of_done ih).2

theorem Stretch.of_step (h : Step i x x') (hi : x.jobs[i]? = some s)
    (hjobs : x'.jobs = (x.put i s' m).jobs) (hlog : x'.log = x.log ++ [(i, m)]) :
    Stretch i [] [m] s' x x' where
  steps := .single h
  log := hlog
  length := by
    rw [hjobs]
    exact List.length_set
  stands := by
    rw [hjobs]
    exact getElem?_put_self hi s' m
  others j hj := by
    rw [hjobs, getElem?_put_of_ne hj.symm]
    exact (if_neg List.not_mem_nil).symm
  waited := nofun
  nodup := List.nodup_nil

theorem Stretch.of_wake (h : Step i x x') (hi : x.jobs[i]? = some s)
    (hjobs : x'.jobs = ((x.put i s' m).wake j).jobs) (hlog : x'.log = x.log ++ [(i, m)])
    (hij : j ≠ i) (hj : ∃ p, x.jobs[j]? = some (.waiting p)) : Stretch i [j] [m] s' x x' where
  steps := .single h
  log := hlog
  length := by
    rw [hjobs]
    exact (List.length_modify ..).trans List.length_set
  stands := by
    rw [hjobs]
    exact (List.getElem?_modify_ne _ _ hij).trans (getElem?_put_self hi s' m)
  others k hk := by
    rw [hjobs, wake, List.getElem?_modify, getElem?_put_of_ne hk.symm]
    by_cases hjk : j = k
    · simp [hjk]
    · simp [hjk, Ne.symm hjk]
  waited k hk := by
    obtain rfl := List.mem_singleton.1 hk
    exact ⟨hij, hj⟩
  nodup := List.nodup_singleton j

end Crowd

/-! ## One step -/

namespace Desk

/-- The jobs that wait at the gates, those at older gates first. -/
def atGate (d : Desk) : List Nat := d.gates.reverse.flatMap (·.waiting)

theorem atGate_of_append {d : Desk} {newer older : List Gate} {g : Gate}
    (h : d.gates = newer ++ g :: older) : d.atGate =
      older.reverse.flatMap (·.waiting) ++ (g.waiting ++ newer.reverse.flatMap (·.waiting)) := by
  rw [atGate, h, List.reverse_append, List.reverse_cons, List.append_assoc, List.flatMap_append,
    List.flatMap_append, List.flatMap_singleton]

theorem atGate_of_cons {d : Desk} {older : List Gate} {g : Gate} (h : d.gates = g :: older) :
    d.atGate = older.reverse.flatMap (·.waiting) ++ g.waiting := by
  rw [atGate, h, List.reverse_cons, List.flatMap_append, List.flatMap_singleton]

theorem letPass_inv (i : Nat) (c : RepositoryCall) (d : Desk) : ∃ gates,
    d.letPass i c = (true, { d with gates := gates }) ∧
        atGate { d with gates := gates } = d.atGate ∨
      d.letPass i c = (false, { d with gates := gates }) ∧
        atGate { d with gates := gates } = d.atGate ++ [i] := by
  cases c with
  | push branch setUpstream =>
    cases hgates : d.gates with
    | nil =>
      have hpass : d.letPass i (.push branch setUpstream) = (true, d) := by
        simp only [letPass, hgates]
      exact ⟨d.gates, .inl ⟨hpass, rfl⟩⟩
    | cons g older =>
      have hold := atGate_of_cons hgates
      have hnew (g' : Gate) := atGate_of_cons (d := { d with gates := g' :: older }) rfl
      cases hpermit : g.permit with
      | true =>
        refine ⟨{ g with permit := false } :: older, .inl ⟨?_, (hnew _).trans hold.symm⟩⟩
        simp only [letPass, hgates, hpermit, if_true]
      | false =>
        refine ⟨{ g with waiting := g.waiting ++ [i] } :: older, .inr ⟨?_, ?_⟩⟩
        · simp only [letPass, hgates, hpermit, Bool.false_eq_true, if_false]
        · rw [hnew, hold, List.append_assoc]
  | _ => exact ⟨d.gates, .inl ⟨rfl, rfl⟩⟩

/-- A call is made, or it has to wait at a gate. -/
theorem step_call (i : Nat) (passed : Bool) (c : RepositoryCall) (d : Desk) : ∃ gates,
    d.step i passed (.tree (.repository c)) = (.answered (call c { d with gates := gates }).1,
        (call c { d with gates := gates }).2, none) ∧ atGate { d with gates := gates } = d.atGate ∨
      d.step i passed (.tree (.repository c)) = (.held, { d with gates := gates }, none) ∧
        atGate { d with gates := gates } = d.atGate ++ [i] := by
  cases passed with
  | true => exact ⟨d.gates, .inl ⟨rfl, rfl⟩⟩
  | false =>
    obtain ⟨gates, ⟨hpass, hgate⟩ | ⟨hpass, hgate⟩⟩ := d.letPass_inv i c
    · refine ⟨gates, .inl ⟨?_, hgate⟩⟩
      rw [step, if_neg (by decide), hpass]
      rfl
    · refine ⟨gates, .inr ⟨?_, hgate⟩⟩
      rw [step, if_neg (by decide), hpass]
      rfl

/-- A desk has changed as the marks say, and so has a crowd that has the same lock. -/
structure Shows (marks : List Mark) (d d' : Desk) (x' : Crowd α) : Prop where
  lock : x'.lock = d'.lock
  target : d'.target = d.target
  bus : d'.host.bus = d.host.bus.postAll (marks.filterMap Mark.posted?)
  kept : d'.host.kept = d.host.kept
  polling : d'.host.polling = marks.foldl Mark.polling d.host.polling
  told : Surroundings.Tells d.host.lastLink marks d'.host.lastLink
  worker : d'.worker = d.worker
  ofWorker : ∀ m ∈ marks, m.OfWorker d.worker

theorem Shows.refl {d : Desk} {x : Crowd α} (hlock : x.lock = d.lock) : Shows [] d d x :=
  ⟨hlock, rfl, rfl, rfl, rfl, .nil, rfl, nofun⟩

theorem Shows.trans {marks marks' : List Mark} {d d' d'' : Desk} {x' x'' : Crowd α}
    (h : Shows marks d d' x') (h' : Shows marks' d' d'' x'') :
    Shows (marks ++ marks') d d'' x'' where
  lock := h'.lock
  target := h'.target.trans h.target
  bus := by
    rw [h'.bus, h.bus, List.filterMap_append, Bus.postAll, Bus.postAll, Bus.postAll,
      List.foldl_append]
  kept := h'.kept.trans h.kept
  polling := by rw [h'.polling, h.polling, List.foldl_append]
  told := h.told.trans h'.told
  worker := h'.worker.trans h.worker
  ofWorker m hm := (List.mem_append.1 hm).elim (h.ofWorker m) fun hm => h.worker ▸ h'.ofWorker m hm

variable {d d' : Desk} {x : Crowd α} {l : Crowd.Ledger} {i : Nat} {passed : Bool} {s : HostStep}
  {next : s.Answer → Job α} {a : s.Answer} {woken : Option Nat}

/-- A step that gets its answer is one of the crowd, or, if it is a call, its beginning and its
end. -/
theorem step_of_answered (h : d.step i passed s = (.answered a, d', woken))
    (H : Crowd.Orderly x l) (hlock : x.lock = d.lock)
    (hi : x.jobs[i]? = some (.ready (.ask s next))) :
    d'.atGate = d.atGate ∧ ∃ x' marks,
      Crowd.Stretch i woken.toList marks (.ready (next a)) x x' ∧ Shows marks d d' x' := by
  obtain ⟨_ | _ | c | _⟩ | _ | _ | _ | _ | m := s
  case tree.acquire =>
    rcases hl : d.lock.acquire i with ⟨_ | _, lock⟩
    · rw [step, hl] at h
      cases h
    · rw [step, hl] at h
      cases h
      rw [← hlock] at hl
      exact ⟨rfl, _, _, .of_step (.take hi hl) hi rfl rfl,
        ⟨rfl, rfl, rfl, rfl, rfl, .single d.surroundings trivial, rfl,
          List.forall_mem_singleton.2 trivial⟩⟩
  case tree.release =>
    rcases hl : d.lock.release with ⟨_ | j, lock⟩
    · rw [step, hl] at h
      cases h
      rw [← hlock] at hl
      exact ⟨rfl, _, _, .of_step (.free hi hl) hi rfl rfl,
        ⟨rfl, rfl, rfl, rfl, rfl, .single d.surroundings trivial, rfl,
          List.forall_mem_singleton.2 trivial⟩⟩
    · rw [step, hl] at h
      cases h
      rw [← hlock] at hl
      obtain ⟨rest, hwaiting, -⟩ := TreeLock.of_release_some hl
      have hj : ∃ p, x.jobs[j]? = some (.waiting p) := H.waiting_of_mem (hwaiting ▸ .head _)
      have hji : j ≠ i := by
        rintro rfl
        obtain ⟨p, hp⟩ := hj
        cases hi.symm.trans hp
      exact ⟨rfl, _, _, .of_wake (.pass hi hl) hi rfl rfl hji hj,
        ⟨rfl, rfl, rfl, rfl, rfl, .single d.surroundings trivial, rfl,
          List.forall_mem_singleton.2 trivial⟩⟩
  case tree.repository =>
    have hcall (gates : List Gate) : ∃ x' marks,
        Crowd.Stretch i [] marks (.ready (next (call c { d with gates := gates }).1)) x x' ∧
          Shows marks d (call c { d with gates := gates }).2 x' := by
      have hbegun := Crowd.getElem?_put_self hi (.calling c next) (.began c)
      have hbegin := Crowd.Stretch.of_step (.begin hi) hi rfl rfl
      exact ⟨_, _, hbegin.trans (.of_step (.answered hbegun _) hbegun rfl rfl),
        ⟨hlock, rfl, rfl, rfl, rfl, tells_call c _, rfl, by simp [Mark.OfWorker]⟩⟩
    obtain ⟨gates, ⟨hstep, hgate⟩ | ⟨hstep, -⟩⟩ := step_call i passed c d
    · cases hstep.symm.trans h
      exact ⟨hgate, hcall gates⟩
    · cases hstep.symm.trans h
  case workerUp =>
    cases h
    exact ⟨rfl, _, _, .of_step (.aside hi rfl _) hi rfl rfl,
      ⟨hlock, rfl, rfl, rfl, rfl, .single d.surroundings rfl, rfl,
        List.forall_mem_singleton.2 rfl⟩⟩
  case worker =>
    cases h
    exact ⟨rfl, _, _, .of_step (.aside hi rfl _) hi rfl rfl,
      ⟨hlock, rfl, rfl, rfl, rfl, .single d.surroundings trivial, rfl,
        List.forall_mem_singleton.2 rfl⟩⟩
  case tree.findReview | updateLink =>
    cases h
    exact ⟨rfl, _, _, .of_step (.aside hi rfl _) hi rfl rfl,
      ⟨hlock, rfl, rfl, rfl, rfl, .single d.surroundings rfl, rfl,
        List.forall_mem_singleton.2 trivial⟩⟩
  all_goals
    cases h
    exact ⟨rfl, _, _, .of_step (.aside hi rfl _) hi rfl rfl,
      ⟨hlock, rfl, rfl, rfl, rfl, .single d.surroundings trivial, rfl,
        List.forall_mem_singleton.2 trivial⟩⟩

theorem step_of_promised (h : d.step i passed s = (.promised a, d', woken))
    (hlock : x.lock = d.lock) (hi : x.jobs[i]? = some (.ready (.ask s next))) :
    d'.atGate = d.atGate ∧ woken = none ∧ ∃ x' marks,
      Crowd.Stretch i [] marks (.waiting (next a)) x x' ∧ Shows marks d d' x' := by
  obtain ⟨_ | _ | c | _⟩ | _ | _ | _ | _ | m := s
  case tree.acquire =>
    rcases hl : d.lock.acquire i with ⟨_ | _, lock⟩
    · rw [step, hl] at h
      cases h
      rw [← hlock] at hl
      exact ⟨rfl, rfl, _, _, .of_step (.wait hi hl) hi rfl rfl,
        ⟨rfl, rfl, rfl, rfl, rfl, .single d.surroundings trivial, rfl,
          List.forall_mem_singleton.2 trivial⟩⟩
    · rw [step, hl] at h
      cases h
  case tree.repository =>
    obtain ⟨gates, ⟨hstep, -⟩ | ⟨hstep, -⟩⟩ := step_call i passed c d
    · cases hstep.symm.trans h
    · cases hstep.symm.trans h
  all_goals cases h

/-- A push that has to wait at a gate makes no step. -/
theorem step_of_held (h : d.step i passed s = (.held, d', woken)) :
    d'.atGate = d.atGate ++ [i] ∧ woken = none ∧ d'.lock = d.lock ∧ d'.target = d.target ∧
      d'.host = d.host ∧ d'.worker = d.worker := by
  obtain ⟨_ | _ | c | _⟩ | _ | _ | _ | _ | m := s
  case tree.acquire =>
    rw [step] at h
    rcases hl : d.lock.acquire i with ⟨_ | _, lock⟩ <;> simp [hl] at h
  case tree.repository =>
    obtain ⟨gates, ⟨hstep, -⟩ | ⟨hstep, hgate⟩⟩ := step_call i passed c d
    · cases hstep.symm.trans h
    · cases hstep.symm.trans h
      exact ⟨hgate, rfl, rfl, rfl, rfl, rfl⟩
  all_goals cases h

/-! ## One turn -/

/-- How a job that has come to a halt stands, and which jobs wait at the gates then. -/
inductive Halt.Stands (i : Nat) (waiting : List Nat) : Halt α → Standing α → List Nat → Prop
  | ended (a : α) : Stands i waiting (.ended a) (.ready (.done a)) waiting
  | queued (rest : Job α) : Stands i waiting (.waiting rest) (.waiting rest) waiting
  | held (rest : Job α) : Stands i waiting (.waiting rest) (.ready rest) (waiting ++ [i])

theorem Halt.Stands.gate {halt : Halt α} {st : Standing α} {waiting waiting' : List Nat}
    (h : halt.Stands i waiting st waiting') :
    waiting' = waiting ∨ waiting' = waiting ++ [i] ∧ ∃ p, st = .ready p := by
  cases h with
  | ended | queued => exact .inl rfl
  | held rest => exact .inr ⟨rfl, rest, rfl⟩

theorem Halt.Stands.of_waiting {rest : Job α} {st : Standing α} {waiting waiting' : List Nat}
    (h : (Halt.waiting rest).Stands i waiting st waiting') :
    st = .ready rest ∨ st = .waiting rest := by
  cases h with
  | queued => exact .inr rfl
  | held => exact .inl rfl

theorem Halt.Stands.of_ended {b : α} {st : Standing α} {waiting waiting' : List Nat}
    (h : (Halt.ended b).Stands i waiting st waiting') : st = .ready (.done b) := by
  cases h
  rfl

/-- A run of a job is a stretch of the crowd. -/
theorem work_stretch {p : Job α} (H : Crowd.Orderly x l) (hlock : x.lock = d.lock)
    (hi : x.jobs[i]? = some (.ready p)) (passed : Bool) : ∃ x' marks s,
      Crowd.Stretch i (d.work i passed p).woken marks s x x' ∧
      Shows marks d (d.work i passed p).desk x' ∧
      (d.work i passed p).halt.Stands i d.atGate s (d.work i passed p).desk.atGate := by
  induction p generalizing d x l passed with
  | done a => exact ⟨x, [], _, .refl hi, .refl hlock, .ended a⟩
  | ask q next ih =>
    rw [work]
    rcases hq : d.step i passed q with ⟨a | a | _, d', woken⟩
    · obtain ⟨hgate, x₁, marks₁, hstretch₁, hshows₁⟩ := step_of_answered hq H hlock hi
      obtain ⟨l₁, H₁⟩ := H.steps hstretch₁.steps
      obtain ⟨x', marks, s, hstretch, hshows, hstands⟩ :=
        ih a H₁ hshows₁.lock hstretch₁.stands false
      exact ⟨x', _, s, hstretch₁.trans hstretch, hshows₁.trans hshows, hgate ▸ hstands⟩
    · obtain ⟨hgate, rfl, x', marks, hstretch, hshows⟩ := step_of_promised hq hlock hi
      exact ⟨x', marks, _, hstretch, hshows, hgate ▸ .queued _⟩
    · obtain ⟨hgate, rfl, hlock', htarget, hhost, hworker⟩ := step_of_held hq
      exact ⟨x, [], _, .refl hi, ⟨hlock.trans hlock'.symm, htarget, congrArg Host.bus hhost,
        congrArg Host.kept hhost, congrArg Host.polling hhost, hhost ▸ .nil, hworker, nofun⟩,
        hgate ▸ .held _⟩

end Desk

namespace Crew

variable {c c' : Crew α} {x x' : Crowd α} {l : Crowd.Ledger} {i : Nat} {r : Desk.Run α}

/-- A crew and a crowd stand alike. -/
structure Matches (c : Crew α) (x : Crowd α) : Prop where
  lock : x.lock = c.desk.lock
  started : x.jobs.length = c.started
  tasks : ∀ t ∈ c.tasks,
    x.jobs[t.number]? = some (.ready t.rest) ∨ x.jobs[t.number]? = some (.waiting t.rest)
  ended : ∀ e ∈ c.ended, x.jobs[e.1]? = some (.ready (.done e.2))
  /-- The jobs that have been woken, and those at a gate, wait for the tree no more. -/
  awake : ∀ n ∈ c.ready ++ c.desk.atGate, ∃ p, x.jobs[n]? = some (.ready p)
  nodup : (c.ready ++ c.desk.atGate).Nodup

theorem record_desk (i : Nat) (r : Desk.Run α) (c : Crew α) : (c.record i r).desk = r.desk := by
  unfold record
  split <;> rfl

theorem record_started (i : Nat) (r : Desk.Run α) (c : Crew α) :
    (c.record i r).started = c.started := by
  unfold record
  split <;> rfl

theorem mem_record_tasks {t : Task α} (h : t ∈ (c.record i r).tasks) :
    t ∈ c.tasks ∧ t.number ≠ i ∨ t.number = i ∧ r.halt = .waiting t.rest := by
  unfold record at h
  split at h
  · obtain ⟨ht, hne⟩ := List.mem_filter.1 h
    exact .inl ⟨ht, by simpa using hne⟩
  · next rest hhalt =>
    obtain ⟨u, hu, rfl⟩ := List.mem_map.1 h
    by_cases hui : u.number = i
    · rw [if_pos hui]
      exact .inr ⟨hui, hhalt⟩
    · rw [if_neg hui]
      exact .inl ⟨hu, hui⟩

theorem mem_record_ended {e : Nat × α} (h : e ∈ (c.record i r).ended) :
    e ∈ c.ended ∨ e.1 = i ∧ r.halt = .ended e.2 := by
  unfold record at h
  split at h
  · next a hhalt =>
    obtain h | h := List.mem_append.1 h
    · exact .inl h
    · obtain rfl := List.mem_singleton.1 h
      exact .inr ⟨rfl, hhalt⟩
  · exact .inl h

theorem Matches.record (H : Matches c x) {marks : List Mark} {s : Standing α}
    {ready : List Nat} (hready : c.ready = i :: ready) (hlock : x'.lock = r.desk.lock)
    (h : Crowd.Stretch i r.woken marks s x x')
    (hstands : r.halt.Stands i c.desk.atGate s r.desk.atGate) :
    Matches { record i r { c with ready := ready } with ready := ready ++ r.woken } x' := by
  have hnodup := H.nodup
  rw [hready, List.cons_append, List.nodup_cons] at hnodup
  have hready' (n : Nat) (hn : n ∈ ready ++ c.desk.atGate) : ∃ p, x.jobs[n]? = some (.ready p) :=
    H.awake n (by rw [hready]; exact .tail _ hn)
  -- Those that are woken have waited, so they have not been ready.
  have hwoken (n : Nat) (hn : n ∈ r.woken) : n ∉ ready ++ c.desk.atGate := by
    intro hmem
    obtain ⟨-, p, hp⟩ := h.waited n hn
    obtain ⟨q, hq⟩ := hready' n hmem
    cases hp.symm.trans hq
  refine ⟨?_, ?_, fun t ht => ?_, fun e he => ?_, ?_, ?_⟩
  · rw [record_desk, hlock]
  · rw [record_started, h.length, H.started]
  · obtain ⟨ht, hti⟩ | ⟨hti, hhalt⟩ := mem_record_tasks ht
    · obtain ht | ht := H.tasks t ht
      · exact .inl (h.ready hti ht)
      · exact h.waiting hti ht
    · rw [hti, h.stands]
      exact (Desk.Halt.Stands.of_waiting (hhalt ▸ hstands)).imp (congrArg some) (congrArg some)
  · obtain he | ⟨hei, hhalt⟩ := mem_record_ended he
    · exact h.done (H.ended e he)
    · rw [hei, h.stands]
      exact congrArg some (Desk.Halt.Stands.of_ended (hhalt ▸ hstands))
  · intro n hn
    rw [record_desk] at hn
    have hold (hn : n ∈ ready ++ c.desk.atGate) : ∃ p, x'.jobs[n]? = some (.ready p) := by
      obtain ⟨p, hp⟩ := hready' n hn
      exact ⟨p, h.ready (fun hni => hnodup.1 (hni ▸ hn)) hp⟩
    obtain hn | hn := List.mem_append.1 hn
    · obtain hn | hn := List.mem_append.1 hn
      · exact hold (List.mem_append_left _ hn)
      · exact h.ready_of_woken hn
    · obtain hgate | ⟨hgate, p, rfl⟩ := hstands.gate
      · exact hold (List.mem_append_right _ (hgate ▸ hn))
      · obtain hn | hn := List.mem_append.1 (hgate ▸ hn)
        · exact hold (List.mem_append_right _ hn)
        · obtain rfl := List.mem_singleton.1 hn
          exact ⟨p, h.stands⟩
  · -- Nobody is ready twice: those that are woken were not ready, and the job itself is not.
    have hall : (r.woken ++ (ready ++ c.desk.atGate)).Nodup :=
      List.nodup_append.2 ⟨h.nodup, hnodup.2, fun n hn m hm hnm => hwoken n hn (hnm ▸ hm)⟩
    have hself : i ∉ r.woken ++ (ready ++ c.desk.atGate) := fun hmem =>
      (List.mem_append.1 hmem).elim (fun hi => (h.waited i hi).1 rfl) hnodup.1
    have hperm : ((ready ++ r.woken) ++ c.desk.atGate).Perm
        (r.woken ++ (ready ++ c.desk.atGate)) := by
      rw [← List.append_assoc]
      exact List.perm_append_comm.append_right _
    rw [record_desk]
    obtain hgate | ⟨hgate, -⟩ := hstands.gate
    · rw [hgate]
      exact hperm.nodup_iff.2 hall
    · rw [hgate, ← List.append_assoc]
      refine List.nodup_append.2 ⟨hperm.nodup_iff.2 hall, List.nodup_singleton i, ?_⟩
      intro n hn m hm hnm
      obtain rfl := List.mem_singleton.1 hm
      exact hself (hperm.mem_iff.1 (hnm ▸ hn))

/-- A turn is a run of the crowd. -/
theorem Matches.turn_shows (H : Matches c x) (ho : Crowd.Orderly x l) (h : c.turn? = some c') :
    ∃ x' marks, ReflTransGen (fun x x' => ∃ i, Crowd.Step i x x') x x' ∧
      x'.log = x.log ++ marks ∧ Matches c' x' ∧
      Desk.Shows (marks.map (·.2)) c.desk c'.desk x' := by
  unfold turn? at h
  split at h
  · cases h
  · next number ready hready =>
    dsimp only at h
    split at h
    · cases h
      refine ⟨x, [], .refl, (List.append_nil _).symm, ⟨H.lock, H.started, H.tasks, H.ended, ?_, ?_⟩,
        .refl H.lock⟩
      · intro n hn
        exact H.awake n (by rw [hready]; exact .tail _ hn)
      · have hnodup := H.nodup
        rw [hready, List.cons_append, List.nodup_cons] at hnodup
        exact hnodup.2
    · next t hfind =>
      cases h
      have ht := List.mem_of_find?_eq_some hfind
      obtain rfl : t.number = number := by simpa using List.find?_some hfind
      have hi : x.jobs[t.number]? = some (.ready t.rest) := by
        obtain ⟨p, hp⟩ := H.awake t.number (by rw [hready]; exact .head _)
        obtain hi | hi := H.tasks t ht
        · exact hi
        · cases hi.symm.trans hp
      obtain ⟨x', marks, s, hstretch, hshows, hstands⟩ :=
        Desk.work_stretch ho H.lock hi t.passed
      refine ⟨x', marks.map (t.number, ·), ?_, hstretch.log, ?_, ?_⟩
      · exact ReflTransGen.mono (fun _ _ hs => ⟨_, hs⟩) _ _ hstretch.steps
      · exact Matches.record H hready hshows.lock hstretch hstands
      · rw [List.map_map, show (·.2) ∘ (t.number, ·) = id from rfl, List.map_id]
        exact (record_desk ..).symm ▸ hshows

/-- The messages that are posted in a turn are those of the log. -/
theorem Matches.turn (H : Matches c x) (ho : Crowd.Orderly x l) (h : c.turn? = some c') :
    ∃ x' marks, ReflTransGen (fun x x' => ∃ i, Crowd.Step i x x') x x' ∧
      x'.log = x.log ++ marks ∧ Matches c' x' ∧ c'.desk.target = c.desk.target ∧
      c'.desk.host.bus = c.desk.host.bus.postAll (marks.filterMap (·.2.posted?)) ∧
      c'.desk.host.kept = c.desk.host.kept ∧
      c'.desk.host.polling = (marks.map (·.2)).foldl Mark.polling c.desk.host.polling ∧
      Surroundings.Tells c.desk.host.lastLink (marks.map (·.2)) c'.desk.host.lastLink := by
  obtain ⟨x', marks, hsteps, hlog, hmatches, hshows⟩ := H.turn_shows ho h
  refine ⟨x', marks, hsteps, hlog, hmatches, hshows.target, ?_, hshows.kept, hshows.polling,
    hshows.told⟩
  rw [hshows.bus, List.filterMap_map]
  rfl

theorem Matches.start (H : Matches c x) (job : Job α) : Matches (c.start job) (x.start job) := by
  have hold {n : Nat} {st : Standing α} (hn : x.jobs[n]? = some st) :
      (x.start job).jobs[n]? = some st :=
    (List.getElem?_append_left (List.getElem?_eq_some_iff.1 hn).1).trans hn
  have hnew : (x.start job).jobs[c.started]? = some (.ready job) := by
    rw [← H.started]
    exact List.getElem?_concat_length
  refine ⟨H.lock, ?_, fun t ht => ?_, fun e he => hold (H.ended e he), fun n hn => ?_, ?_⟩
  · rw [Crowd.start, List.length_append, H.started]
    rfl
  · obtain ht | ht := List.mem_append.1 ht
    · exact (H.tasks t ht).imp hold hold
    · obtain rfl := List.mem_singleton.1 ht
      exact .inl hnew
  · rw [Crew.start, List.append_assoc, List.mem_append, List.mem_append] at hn
    obtain hn | hn | hn := hn
    · exact (H.awake n (List.mem_append_left _ hn)).imp fun _ => hold
    · obtain rfl := List.mem_singleton.1 hn
      exact ⟨job, hnew⟩
    · exact (H.awake n (List.mem_append_right _ hn)).imp fun _ => hold
  · have hnot : c.started ∉ c.ready ++ c.desk.atGate := by
      intro hmem
      obtain ⟨p, hp⟩ := H.awake _ hmem
      exact absurd (List.getElem?_eq_some_iff.1 hp).1 (H.started ▸ Nat.lt_irrefl _)
    have hperm : ((c.ready ++ [c.started]) ++ c.desk.atGate).Perm
        (c.started :: (c.ready ++ c.desk.atGate)) := by
      rw [List.append_assoc]
      exact List.perm_middle
    exact hperm.nodup_iff.2 (List.nodup_cons.2 ⟨hnot, H.nodup⟩)

/-- What happens to the desk by itself, except for the lock and those at the gates, is of no
account. -/
theorem Matches.setDesk (H : Matches c x) {d : Desk} (hlock : d.lock = c.desk.lock)
    (hgate : d.atGate = c.desk.atGate) : Matches { c with desk := d } x := by
  refine ⟨H.lock.trans hlock.symm, H.started, H.tasks, H.ended, ?_, ?_⟩
  · rw [hgate]
    exact H.awake
  · rw [hgate]
    exact H.nodup

theorem atGate_holdPushes (c : Crew α) : c.holdPushes.desk.atGate = c.desk.atGate := by
  simp [holdPushes, Desk.atGate]

theorem Matches.holdPushes (H : Matches c x) : Matches c.holdPushes x :=
  H.setDesk rfl (atGate_holdPushes c)

/-- Where a gate lets a push pass, no job goes on yet, or the one goes on that has waited there
longest. -/
theorem releasePush_cases (gate : Nat) (c : Crew α) : ∃ gates,
    c.releasePush gate = { c with desk := { c.desk with gates := gates } } ∧
        Desk.atGate { c.desk with gates := gates } = c.desk.atGate ∨
      ∃ number, c.releasePush gate = { c with
          desk := { c.desk with gates := gates }
          tasks := c.tasks.map fun t => if t.number = number then { t with passed := true } else t
          ready := c.ready ++ [number] } ∧
        c.desk.atGate.Perm (number :: Desk.atGate { c.desk with gates := gates }) := by
  unfold releasePush
  cases hg : c.desk.gates[gate]? with
  | none => exact ⟨c.desk.gates, .inl ⟨rfl, rfl⟩⟩
  | some g =>
    obtain ⟨hlt, hget⟩ := List.getElem?_eq_some_iff.1 hg
    have hset (g' : Gate) : c.desk.gates.set gate g' =
        c.desk.gates.take gate ++ g' :: c.desk.gates.drop (gate + 1) := by
      rw [List.set_eq_take_append_cons_drop, if_pos hlt]
    have hself : c.desk.gates = c.desk.gates.take gate ++ g :: c.desk.gates.drop (gate + 1) := by
      rw [← hset, ← hget, List.set_getElem_self]
    have hold := Desk.atGate_of_append hself
    have hnew (g' : Gate) :
        Desk.atGate { c.desk with gates := c.desk.gates.set gate g' } = _ :=
      Desk.atGate_of_append (hset g')
    obtain ⟨permit, _ | ⟨number, waiting⟩⟩ := g
    · exact ⟨_, .inl ⟨rfl, (hnew _).trans hold.symm⟩⟩
    · refine ⟨_, .inr ⟨number, rfl, ?_⟩⟩
      rw [hold, hnew]
      exact List.perm_middle

theorem Matches.releasePush (H : Matches c x) (gate : Nat) : Matches (c.releasePush gate) x := by
  obtain ⟨gates, ⟨heq, hgate⟩ | ⟨number, heq, hperm⟩⟩ := c.releasePush_cases gate
  · exact heq ▸ H.setDesk rfl hgate
  · have hall : ((c.ready ++ [number]) ++ Desk.atGate { c.desk with gates := gates }).Perm
        (c.ready ++ c.desk.atGate) := by
      rw [List.append_assoc]
      exact hperm.symm.append_left c.ready
    rw [heq]
    refine ⟨H.lock, H.started, fun t ht => ?_, H.ended, fun n hn => ?_, ?_⟩
    · obtain ⟨u, hu, rfl⟩ := List.mem_map.1 ht
      have hstands := H.tasks u hu
      split <;> exact hstands
    · exact H.awake n (hall.mem_iff.1 hn)
    · exact hall.nodup_iff.2 H.nodup

theorem releasePush_desk (gate : Nat) (c : Crew α) :
    ∃ gates, (c.releasePush gate).desk = { c.desk with gates := gates } := by
  obtain ⟨gates, ⟨heq, -⟩ | ⟨number, heq, -⟩⟩ := c.releasePush_cases gate
  · exact ⟨gates, heq ▸ rfl⟩
  · exact ⟨gates, heq ▸ rfl⟩

theorem releasePush_target (gate : Nat) (c : Crew α) :
    (c.releasePush gate).desk.target = c.desk.target := by
  obtain ⟨gates, hdesk⟩ := releasePush_desk gate c
  rw [hdesk]

/-- What a job has left to do does not change by that. -/
theorem exists_of_mem_releasePush {gate : Nat} {t : Task α} (ht : t ∈ (c.releasePush gate).tasks) :
    ∃ u ∈ c.tasks, u.number = t.number ∧ u.rest = t.rest := by
  obtain ⟨gates, ⟨heq, -⟩ | ⟨number, heq, -⟩⟩ := c.releasePush_cases gate
  · exact ⟨t, by rwa [heq] at ht, rfl, rfl⟩
  · rw [heq] at ht
    obtain ⟨u, hu, rfl⟩ := List.mem_map.1 ht
    refine ⟨u, hu, ?_⟩
    split <;> exact ⟨rfl, rfl⟩

theorem releasePush_kept (gate : Nat) (c : Crew α) :
    (c.releasePush gate).started = c.started ∧ (c.releasePush gate).ended = c.ended ∧
      (c.releasePush gate).tasks.map (·.number) = c.tasks.map (·.number) := by
  obtain ⟨gates, ⟨heq, -⟩ | ⟨number, heq, -⟩⟩ := c.releasePush_cases gate
  · rw [heq]
    exact ⟨rfl, rfl, rfl⟩
  · rw [heq]
    refine ⟨rfl, rfl, ?_⟩
    rw [List.map_map]
    refine List.map_congr_left fun t _ => ?_
    dsimp only [Function.comp]
    split <;> rfl

/-! ## Whole runs -/

inductive Run (target : String) : List Operation → Crew Report → Prop
  | idle {d : Desk} (htarget : d.target = target) (hlock : d.lock = {}) (hgate : d.gates = []) :
    Run target [] { desk := d }
  | startSave {ops : List Operation} {c : Crew Report} (message : String) :
    Run target ops c → Run target (ops ++ [.save message]) (c.startSave message)
  | startStatus {ops : List Operation} {c : Crew Report} :
    Run target ops c → Run target (ops ++ [.status]) c.startStatus
  | turn {ops : List Operation} {c c' : Crew Report} :
    Run target ops c → c.turn? = some c' → Run target ops c'
  | holdPushes {ops : List Operation} {c : Crew Report} :
    Run target ops c → Run target ops c.holdPushes
  | releasePush {ops : List Operation} {c : Crew Report} (gate : Nat) :
    Run target ops c → Run target ops (c.releasePush gate)
  | update {ops : List Operation} {c : Crew Report} (f : MemoryRepository → MemoryRepository) :
    Run target ops c → Run target ops (c.update f)

/-- What a crew does, a crowd can do. -/
theorem Run.reconciliation {target : String} {ops : List Operation} {c : Crew Report}
    (h : Run target ops c) : c.desk.target = target ∧
      ∃ x, Reconciliation target ops x ∧ Matches c x := by
  induction h with
  | idle htarget hlock hgate =>
    refine ⟨htarget, {}, .idle, ⟨hlock.symm, rfl, nofun, nofun, ?_, ?_⟩⟩
    · simp [Desk.atGate, hgate]
    · simp [Desk.atGate, hgate]
  | startSave message _ ih =>
    obtain ⟨rfl, x, hx, H⟩ := ih
    rw [Operation.startSave_eq]
    exact ⟨rfl, _, hx.start (.save message), H.start _⟩
  | startStatus _ ih =>
    obtain ⟨rfl, x, hx, H⟩ := ih
    rw [Operation.startStatus_eq]
    exact ⟨rfl, _, hx.start .status, H.start _⟩
  | turn _ hturn ih =>
    obtain ⟨rfl, x, hx, H⟩ := ih
    obtain ⟨l, hl⟩ := hx.orderly
    obtain ⟨x', marks, hsteps, -, H', htarget, -⟩ := H.turn hl hturn
    refine ⟨htarget, x', ?_, H'⟩
    clear H H' hl
    induction hsteps with
    | refl => exact hx
    | tail _ hs ih =>
      obtain ⟨i, hs⟩ := hs
      exact ih.step hs
  | holdPushes _ ih =>
    obtain ⟨htarget, x, hx, H⟩ := ih
    exact ⟨htarget, x, hx, H.holdPushes⟩
  | releasePush gate _ ih =>
    obtain ⟨htarget, x, hx, H⟩ := ih
    exact ⟨(releasePush_target gate _).trans htarget, x, hx, H.releasePush gate⟩
  | update f _ ih =>
    obtain ⟨htarget, x, hx, H⟩ := ih
    exact ⟨htarget, x, hx, H.setDesk rfl rfl⟩

end Crew
end PublishDesk
