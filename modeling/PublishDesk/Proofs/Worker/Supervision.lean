import Mathlib.Logic.Relation
import PublishDesk.Proofs.Worker.MonitorStep

/-!
# Supervision

Any number of handles start and stop a supervisor, its token is cancelled from anywhere, and workers
end when they like. `Supervision.Step` is one atomic step of any of them, and `Supervision.Sound` is
the invariant of all runs. A stop that has returned is final (`Supervision.Reachable.safe`): no
worker is left, and none will ever be spawned.
-/

namespace PublishDesk

/-- How far a call to stop has come. It has cancelled the supervisor before. -/
inductive StopCall where
  /-- It asks whether there has been a start. -/
  | asking
  /-- It has found no start, and shows that there is no worker. -/
  | closing
  /-- It has found a start, and waits until the monitor has settled. -/
  | waiting
  | returned
deriving DecidableEq, Repr

/-- A supervisor with all that has to do with it. -/
structure Supervision where
  supervisor : Supervisor
  /-- The number of monitors that have been created. -/
  monitors : Nat := 0
  /-- How each worker ended that has been spawned, oldest first; those without an end are alive. -/
  workers : List (Option ExitStatus) := []
  stops : List StopCall := []
deriving DecidableEq, Repr

namespace Supervisor

/-- Whether a call to start creates a monitor. -/
def admitsStart (s : Supervisor) : Bool := !(s.started || s.spawnFailed || s.cancelled)

theorem start_eq (s : Supervisor) : s.start =
    if s.admitsStart then { s with started := true, status := .starting, phase := .entering }
    else s := by
  unfold start admitsStart
  cases s.started || s.spawnFailed || s.cancelled <;> rfl

end Supervisor

namespace Supervision

/-- A worker ends, unless it has ended before. -/
def endWorker (k : Nat) (exit : ExitStatus) (workers : List (Option ExitStatus)) :
    List (Option ExitStatus) := workers.modify k fun e => some (e.getD exit)

/-- What a step of the monitor does to the workers: it spawns a new one, or kills the last one. -/
def follow (before after : Supervisor) (workers : List (Option ExitStatus)) :
    List (Option ExitStatus) :=
  match before.phase, after.phase with
  | .spawning, .spawned _ => workers ++ [none]
  | .killing, _ => endWorker (workers.length - 1) .signal workers
  | _, _ => workers

inductive Step (x : Supervision) : Supervision → Prop
  | start : Step x { x with
      supervisor := x.supervisor.start
      monitors := x.monitors + x.supervisor.admitsStart.toNat }
  | cancel : Step x { x with supervisor := x.supervisor.cancel }
  | stop : Step x { x with supervisor := x.supervisor.cancel, stops := x.stops ++ [.asking] }
  | ask {i : Nat} (h : x.stops[i]? = some .asking) : Step x { x with
      stops := x.stops.set i (if x.supervisor.started then .waiting else .closing) }
  | close {i : Nat} (h : x.stops[i]? = some .closing) : Step x { x with
      supervisor := { x.supervisor with status := .stopped }
      stops := x.stops.set i .returned }
  | finish {i : Nat} (h : x.stops[i]? = some .waiting) (hs : x.supervisor.isSettled) :
    Step x { x with stops := x.stops.set i .returned }
  | monitor {s : Supervisor} {spawn : Except StartFailure Nat}
    (h : x.supervisor.monitor spawn = some s) :
    Step x { x with supervisor := s, workers := follow x.supervisor s x.workers }
  | exit (k : Nat) (e : ExitStatus) : Step x { x with
      supervisor := if k + 1 = x.workers.length then x.supervisor.childExits e else x.supervisor
      workers := endWorker k e x.workers }

def alive (x : Supervision) : Nat := x.workers.countP Option.isNone

/-- The states that supervision of a worker can come to. -/
def Reachable (command : List String) (directory : Path) (x : Supervision) : Prop :=
  Relation.ReflTransGen Step { supervisor := { command := command, directory := directory } } x

/-! ## The invariant -/

end Supervision

/-- Whether the monitor has a worker that it has not reaped. -/
def MonitorPhase.hasWorker : MonitorPhase → Bool
  | .spawned _ | .announcing _ | .waiting _ | .killing | .reaping => true
  | _ => false

namespace Supervisor

/-- The supervisor has been cancelled, and has no monitor that could do anything. -/
def Over (s : Supervisor) : Prop :=
  s.cancelled ∧ (s.started = false ∨ s.phase = .settled)

end Supervisor

/-- What a call to stop knows of the supervisor. -/
def StopCall.Knows (s : Supervisor) : StopCall → Prop
  | .asking => s.cancelled
  | .closing => s.cancelled ∧ s.started = false
  | .waiting => s.cancelled ∧ s.started
  | .returned => s.Over

theorem StopCall.Knows.cancelled {s : Supervisor} {p : StopCall} (h : p.Knows s) : s.cancelled := by
  cases p with
  | asking => exact h
  | closing | waiting | returned => exact h.1

/-- What a call to stop knows stays true as long as no cancellation is undone, none is followed by a
start, and no monitor comes back. -/
theorem StopCall.Knows.mono {s s' : Supervisor} {p : StopCall} (h : p.Knows s)
    (hc : s.cancelled → s'.cancelled) (hs : s.cancelled → s'.started = s.started)
    (hp : s.phase = .settled → s'.phase = .settled) : p.Knows s' := by
  have hstarted := hs h.cancelled
  cases p with
  | asking => exact hc h
  | closing => exact ⟨hc h.1, hstarted.trans h.2⟩
  | waiting => exact ⟨hc h.1, hstarted.trans h.2⟩
  | returned => exact ⟨hc h.1, h.2.imp hstarted.trans hp⟩

namespace Supervision

/-- The monitor has at most one worker to care for: the last one that has been spawned. -/
structure Staffed (s : Supervisor) (workers : List (Option ExitStatus)) : Prop where
  idle : s.phase.hasWorker = false → s.child = none ∧ ∀ e ∈ workers, e.isSome
  busy : s.phase.hasWorker → ∃ before c, s.child = some c ∧ workers = before ++ [c.exit] ∧
    ∀ e ∈ before, e.isSome
  /-- A worker that has been killed ends. -/
  reaping : s.phase = .reaping → ∃ c e, s.child = some c ∧ c.exit = some e

structure Sound (x : Supervision) : Prop where
  monitors : x.monitors = x.supervisor.started.toNat
  absent : x.supervisor.phase = .absent ↔ x.supervisor.started = false
  /-- Where nothing happens, no worker is shown. -/
  idle : x.supervisor.phase = .absent ∨ x.supervisor.phase = .settled →
    x.supervisor.status = .stopped ∧ x.supervisor.pid = none
  staffed : Staffed x.supervisor x.workers
  knows : ∀ p ∈ x.stops, p.Knows x.supervisor

theorem sound_new (command : List String) (directory : Path) :
    Sound { supervisor := { command := command, directory := directory } } where
  monitors := rfl
  absent := ⟨fun _ => rfl, fun _ => rfl⟩
  idle _ := ⟨rfl, rfl⟩
  staffed := ⟨fun _ => ⟨rfl, nofun⟩, nofun, nofun⟩
  knows := nofun

/-! ## Workers -/

section Workers

variable {s s' : Supervisor} {workers before : List (Option ExitStatus)} {k : Nat}
  {exit : ExitStatus}

theorem endWorker_of_isSome (h : ∀ e ∈ workers, e.isSome) : endWorker k exit workers = workers := by
  refine List.ext_getElem? fun j => ?_
  rw [endWorker, List.getElem?_modify]
  cases hj : workers[j]? with
  | none => rfl
  | some e =>
    obtain ⟨e, rfl⟩ := Option.isSome_iff_exists.1 (h e (List.mem_of_getElem? hj))
    split <;> rfl

theorem endWorker_last (e : Option ExitStatus) :
    endWorker before.length exit (before ++ [e]) = before ++ [some (e.getD exit)] := by
  induction before with
  | nil => rfl
  | cons b before ih => exact congrArg (b :: ·) ih

/-- A worker that ends is the last one, or it has ended before. -/
theorem endWorker_of_ne (h : ∀ e ∈ before, e.isSome) (hk : k ≠ before.length)
    (e : Option ExitStatus) : endWorker k exit (before ++ [e]) = before ++ [e] := by
  induction before generalizing k with
  | nil =>
    cases k with
    | zero => exact absurd rfl hk
    | succ k => simp [endWorker]
  | cons b before ih =>
    cases k with
    | zero =>
      obtain ⟨b, rfl⟩ := Option.isSome_iff_exists.1 (h b List.mem_cons_self)
      rfl
    | succ k =>
      refine congrArg (b :: ·) (ih (fun e he => h e (List.mem_cons_of_mem _ he)) fun hlen => hk ?_)
      rw [hlen, List.length_cons]

theorem countP_isNone_eq_zero (h : ∀ e ∈ workers, e.isSome) : workers.countP Option.isNone = 0 :=
  List.countP_eq_zero.2 fun e he => by simpa [Option.isSome_iff_ne_none] using h e he

theorem Staffed.countP_isNone_le (H : Staffed s workers) : workers.countP Option.isNone ≤ 1 := by
  cases hw : s.phase.hasWorker with
  | false =>
    rw [countP_isNone_eq_zero (H.idle hw).2]
    exact Nat.zero_le 1
  | true =>
    obtain ⟨before, c, -, rfl, hbefore⟩ := H.busy hw
    rw [List.countP_append, countP_isNone_eq_zero hbefore, Nat.zero_add]
    exact List.countP_le_length

theorem Staffed.congr (H : Staffed s workers) (hp : s'.phase = s.phase) (hc : s'.child = s.child) :
    Staffed s' workers where
  idle hw := hc ▸ H.idle (hp ▸ hw)
  busy hw := hc ▸ H.busy (hp ▸ hw)
  reaping hr := hc ▸ H.reaping (hp ▸ hr)

/-- Where the monitor has no worker, a step that gives it none changes nothing. -/
theorem Staffed.off (H : Staffed s workers) (h : s.phase.hasWorker = false)
    (h' : s'.phase.hasWorker = false) (hchild : s'.child = s.child) : Staffed s' workers where
  idle _ := hchild ▸ H.idle h
  busy hw := by simp [h'] at hw
  reaping hr := by simp [hr, MonitorPhase.hasWorker] at h'

theorem Staffed.keep (H : Staffed s workers) (h : s.phase.hasWorker) (h' : s'.phase.hasWorker)
    (hr : s'.phase ≠ .reaping) (hchild : s'.child = s.child) : Staffed s' workers where
  idle hw := by simp [h'] at hw
  busy _ := hchild ▸ H.busy h
  reaping hr' := absurd hr' hr

theorem Staffed.leave (H : Staffed s workers) (h : s.phase.hasWorker)
    (h' : s'.phase.hasWorker = false) (hchild' : s'.child = none) {c : Child} {e : ExitStatus}
    (hchild : s.child = some c) (he : c.exit = some e) : Staffed s' workers where
  idle _ := by
    obtain ⟨before, c', hc', rfl, hbefore⟩ := H.busy h
    obtain rfl : c = c' := Option.some.inj (hchild.symm.trans hc')
    refine ⟨hchild', fun x hx => ?_⟩
    obtain hx | hx := List.mem_append.1 hx
    · exact hbefore x hx
    · rw [List.mem_singleton.1 hx, he]
      rfl
  busy hw := by simp [h'] at hw
  reaping hr := by simp [hr, MonitorPhase.hasWorker] at h'

/-- A step that neither spawns nor kills leaves all workers as they are. -/
theorem follow_eq (h : s.phase ≠ .killing) (h' : ∀ pid, s'.phase ≠ .spawned pid) :
    follow s s' workers = workers := by
  unfold follow
  split
  · next hp => exact absurd hp (h' _)
  · next hp => exact absurd hp h
  · rfl

theorem Staffed.monitor (H : Staffed s workers) (h : MonitorStep s s') :
    Staffed s' (follow s s' workers) := by
  cases h with
  | enter h | decline h _ | refuse h _ _ | fail e h _ _ | declined h | failed e h | reaped h
  | giveUp h _ | again h _ | settle h =>
    rw [follow_eq]
    · exact H.off (by rw [h]; rfl) rfl rfl
    · rw [h]
      nofun
    · nofun
  | spawned pid h | announce pid h | terminate pid h _ =>
    rw [follow_eq]
    · exact H.keep (by rw [h]; rfl) rfl nofun rfl
    · rw [h]
      nofun
    · nofun
  | exit pid c e h _ hchild he =>
    rw [follow_eq]
    · exact H.leave (by rw [h]; rfl) rfl rfl hchild he
    · rw [h]
      nofun
    · nofun
  | reap c e h hchild he =>
    rw [follow_eq]
    · exact H.leave (by rw [h]; rfl) rfl rfl hchild he
    · rw [h]
      nofun
    · nofun
  | spawn pid h _ _ =>
    obtain ⟨-, hended⟩ := H.idle (by rw [h]; rfl)
    refine ⟨nofun, fun _ => ⟨workers, { pid := pid }, rfl, ?_, hended⟩, nofun⟩
    simp [follow, h, Supervisor.goTo]
  | kill h =>
    obtain ⟨before, c, hchild, rfl, hended⟩ := H.busy (by rw [h]; rfl)
    have hkilled : (s.childExits .signal).child =
        some { c with exit := some (c.exit.getD .signal) } := by
      rw [Supervisor.childExits, hchild]
      rfl
    refine ⟨nofun, fun _ => ⟨before, _, hkilled, ?_, hended⟩, fun _ => ⟨_, _, hkilled, rfl⟩⟩
    rw [follow, h, List.length_append, List.length_singleton, Nat.add_sub_cancel]
    exact endWorker_last c.exit

theorem Staffed.workerEnds (H : Staffed s workers) (k : Nat) (exit : ExitStatus) :
    Staffed (if k + 1 = workers.length then s.childExits exit else s)
      (endWorker k exit workers) := by
  cases hw : s.phase.hasWorker with
  | false =>
    obtain ⟨hchild, hended⟩ := H.idle hw
    rw [endWorker_of_isSome hended]
    split
    · exact H.off hw hw (by rw [Supervisor.childExits, hchild]; rfl)
    · exact H
  | true =>
    obtain ⟨before, c, hchild, rfl, hended⟩ := H.busy hw
    rw [List.length_append, List.length_singleton]
    split
    · next hk =>
      obtain rfl : k = before.length := Nat.succ.inj hk
      have hends : (s.childExits exit).child = some { c with exit := some (c.exit.getD exit) } := by
        rw [Supervisor.childExits, hchild]
        rfl
      refine ⟨fun hw' => ?_, fun _ => ⟨before, _, hends, endWorker_last c.exit, hended⟩,
        fun _ => ⟨_, _, hends, rfl⟩⟩
      exact absurd (hw'.symm.trans hw) nofun
    · next hk =>
      rw [endWorker_of_ne hended fun hk' => hk (congrArg (· + 1) hk')]
      exact H

end Workers

/-! ## Steps keep the invariant -/

variable {x y : Supervision} {s s' : Supervisor}

/-- A call to start that does anything is the first one, and comes before any cancellation. -/
theorem Sound.start (H : Sound x) (h : x.supervisor.admitsStart) : Sound { x with
    supervisor := { x.supervisor with started := true, status := .starting, phase := .entering }
    monitors := x.monitors + 1 } := by
  simp only [Supervisor.admitsStart, Bool.not_eq_true', Bool.or_eq_false_iff] at h
  obtain ⟨⟨hstarted, -⟩, hcancelled⟩ := h
  have hphase : x.supervisor.phase = .absent := H.absent.2 hstarted
  refine ⟨?_, ⟨nofun, nofun⟩, nofun, ?_, fun p hp => ?_⟩
  · rw [H.monitors, hstarted]
    rfl
  · exact H.staffed.off (by rw [hphase]; rfl) rfl rfl
  · have hc := (H.knows p hp).cancelled
    rw [hcancelled] at hc
    cases hc

theorem Sound.step (H : Sound x) (h : Step x y) : Sound y := by
  cases h with
  | start =>
    rw [Supervisor.start_eq]
    split
    · next h =>
      rw [h]
      exact H.start h
    · next h =>
      rw [eq_false_of_ne_true h]
      exact H
  | cancel =>
    refine ⟨H.monitors, H.absent, H.idle, H.staffed.congr rfl rfl, fun p hp => ?_⟩
    exact (H.knows p hp).mono (fun _ => rfl) (fun _ => rfl) id
  | stop =>
    refine ⟨H.monitors, H.absent, H.idle, H.staffed.congr rfl rfl, fun p hp => ?_⟩
    obtain hp | hp := List.mem_append.1 hp
    · exact (H.knows p hp).mono (fun _ => rfl) (fun _ => rfl) id
    · obtain rfl := List.mem_singleton.1 hp
      exact rfl
  | ask h =>
    refine ⟨H.monitors, H.absent, H.idle, H.staffed, fun p hp => ?_⟩
    obtain hp | rfl := List.mem_or_eq_of_mem_set hp
    · exact H.knows p hp
    · have hc := H.knows _ (List.mem_of_getElem? h)
      split
      · next hs => exact ⟨hc, hs⟩
      · next hs => exact ⟨hc, eq_false_of_ne_true hs⟩
  | close h =>
    obtain ⟨hc, hs⟩ := H.knows _ (List.mem_of_getElem? h)
    refine ⟨H.monitors, H.absent, fun hp => ⟨rfl, (H.idle hp).2⟩, H.staffed.congr rfl rfl,
      fun p hp => ?_⟩
    obtain hp | rfl := List.mem_or_eq_of_mem_set hp
    · exact (H.knows p hp).mono id (fun _ => rfl) id
    · exact ⟨hc, .inl hs⟩
  | finish h hs =>
    obtain ⟨hc, -⟩ := H.knows _ (List.mem_of_getElem? h)
    refine ⟨H.monitors, H.absent, H.idle, H.staffed, fun p hp => ?_⟩
    obtain hp | rfl := List.mem_or_eq_of_mem_set hp
    · exact H.knows p hp
    · exact ⟨hc, .inr (by simpa [Supervisor.isSettled] using hs)⟩
  | monitor h =>
    have hstep := Supervisor.monitorStep_of_monitor h
    obtain ⟨habsent, hsettled⟩ := hstep.phase_ne
    have hstarted : x.supervisor.started = true := by
      cases hs : x.supervisor.started with
      | true => rfl
      | false => exact absurd (H.absent.2 hs) habsent
    refine ⟨?_, ⟨fun hp => absurd hp hstep.phase_ne_absent, fun hs => ?_⟩, fun hp => ?_,
      H.staffed.monitor hstep, fun p hp => ?_⟩
    · rw [hstep.started_eq]
      exact H.monitors
    · rw [hstep.started_eq, hstarted] at hs
      cases hs
    · exact hstep.shows_stopped (hp.resolve_left hstep.phase_ne_absent)
    · exact (H.knows p hp).mono (fun hc => hstep.cancelled_eq ▸ hc) (fun _ => hstep.started_eq)
        fun hp => absurd hp hsettled
  | exit k e =>
    have hstaffed := Staffed.workerEnds H.staffed k e
    revert hstaffed
    split
    · intro hstaffed
      exact ⟨H.monitors, H.absent, H.idle, hstaffed,
        fun p hp => (H.knows p hp).mono id (fun _ => rfl) id⟩
    · intro hstaffed
      exact ⟨H.monitors, H.absent, H.idle, hstaffed, H.knows⟩

theorem Reachable.sound {command : List String} {directory : Path}
    (h : Reachable command directory x) : Sound x := by
  induction h with
  | refl => exact sound_new command directory
  | tail _ hs ih => exact ih.step hs

/-! ## The end -/

/-- When supervision is over, no worker is shown, and none is left. -/
theorem Sound.of_over (H : Sound x) (h : x.supervisor.Over) :
    x.supervisor.status = .stopped ∧ x.supervisor.pid = none ∧ x.supervisor.child = none ∧
      ∀ e ∈ x.workers, e.isSome := by
  have hphase : x.supervisor.phase = .absent ∨ x.supervisor.phase = .settled :=
    h.2.imp_left H.absent.2
  obtain ⟨hstatus, hpid⟩ := H.idle hphase
  refine ⟨hstatus, hpid, H.staffed.idle ?_⟩
  obtain hp | hp := hphase <;>
  · rw [hp]
    rfl

theorem Sound.monitor_eq_none (H : Sound x) (h : x.supervisor.Over)
    (spawn : Except StartFailure Nat) : x.supervisor.monitor spawn = none := by
  refine Option.eq_none_iff_forall_ne_some.2 fun s hs => ?_
  obtain ⟨habsent, hsettled⟩ := (Supervisor.monitorStep_of_monitor hs).phase_ne
  exact h.2.elim (fun hstarted => habsent (H.absent.2 hstarted)) hsettled

/-- What stays as it is when supervision is over. -/
structure Stays (x y : Supervision) : Prop where
  restarts : y.supervisor.restarts = x.supervisor.restarts
  spawns : y.supervisor.spawns = x.supervisor.spawns
  workers : y.workers = x.workers
  monitors : y.monitors = x.monitors

theorem Sound.stays (H : Sound x) (hover : x.supervisor.Over) (h : Step x y) :
    Stays x y ∧ y.supervisor.Over := by
  obtain ⟨-, -, hchild, hended⟩ := H.of_over hover
  cases h with
  | start =>
    have hno : x.supervisor.admitsStart = false := by simp [Supervisor.admitsStart, hover.1]
    rw [Supervisor.start_eq, hno]
    exact ⟨⟨rfl, rfl, rfl, rfl⟩, hover⟩
  | cancel | stop => exact ⟨⟨rfl, rfl, rfl, rfl⟩, rfl, hover.2⟩
  | ask _ | finish _ _ | close _ => exact ⟨⟨rfl, rfl, rfl, rfl⟩, hover⟩
  | monitor h =>
    rw [H.monitor_eq_none hover] at h
    cases h
  | exit k e =>
    have hworkers : endWorker k e x.workers = x.workers := endWorker_of_isSome hended
    split
    · exact ⟨⟨rfl, rfl, hworkers, rfl⟩, hover⟩
    · exact ⟨⟨rfl, rfl, hworkers, rfl⟩, hover⟩

theorem Sound.stays_of_steps (H : Sound x) (hover : x.supervisor.Over)
    (h : Relation.ReflTransGen Step x y) : Stays x y ∧ Sound y ∧ y.supervisor.Over := by
  induction h with
  | refl => exact ⟨⟨rfl, rfl, rfl, rfl⟩, H, hover⟩
  | tail _ hs ih =>
    obtain ⟨hstays, H', hover'⟩ := ih
    obtain ⟨hstays', hover''⟩ := H'.stays hover' hs
    exact ⟨⟨hstays'.restarts.trans hstays.restarts, hstays'.spawns.trans hstays.spawns,
      hstays'.workers.trans hstays.workers, hstays'.monitors.trans hstays.monitors⟩,
      H'.step hs, hover''⟩

/-! ## Calls to stop return -/

/-- A call that waits for the monitor returns, once the monitor has made its last steps. -/
theorem Sound.returns_of_waiting (H : Sound x) {i : Nat} (hi : x.stops[i]? = some .waiting) :
    ∃ y, Relation.ReflTransGen Step x y ∧ y.stops[i]? = some .returned := by
  induction hr : x.supervisor.phase.rank using Nat.strongRecOn generalizing x with
  | _ n ih =>
    obtain ⟨hc, hs⟩ := H.knows _ (List.mem_of_getElem? hi)
    by_cases hsettled : x.supervisor.phase = .settled
    · refine ⟨_, .single (.finish hi (by simpa [Supervisor.isSettled] using hsettled)), ?_⟩
      exact List.getElem?_set_self (List.getElem?_eq_some_iff.1 hi).1
    · have habsent : x.supervisor.phase ≠ .absent := fun h => by
        rw [H.absent.1 h] at hs
        cases hs
      obtain ⟨s, hstep, -, -, -, hrank⟩ :=
        Supervisor.exists_monitorStep hc habsent hsettled H.staffed.reaping
      obtain ⟨spawn, hspawn⟩ := Supervisor.exists_monitor_iff.2 hstep
      have hxs : Step x _ := .monitor hspawn
      obtain ⟨y, hy, hreturned⟩ := ih _ (hr ▸ hrank) (H.step hxs) hi rfl
      exact ⟨y, .head hxs hy, hreturned⟩

theorem Sound.returns (H : Sound x) {i : Nat} {p : StopCall} (hi : x.stops[i]? = some p) :
    ∃ y, Relation.ReflTransGen Step x y ∧ y.stops[i]? = some .returned := by
  have hset (q : StopCall) : (x.stops.set i q)[i]? = some q :=
    List.getElem?_set_self (List.getElem?_eq_some_iff.1 hi).1
  cases p with
  | returned => exact ⟨x, .refl, hi⟩
  | waiting => exact H.returns_of_waiting hi
  | closing => exact ⟨_, .single (.close hi), hset _⟩
  | asking =>
    have hask : Step x _ := .ask hi
    cases hs : x.supervisor.started with
    | true =>
      obtain ⟨y, hy, hreturned⟩ := (H.step hask).returns_of_waiting (by rw [hset, hs]; rfl)
      exact ⟨y, .head hask hy, hreturned⟩
    | false =>
      refine ⟨_, .head hask (.single (.close (by rw [hset, hs]; rfl))), ?_⟩
      simp [(List.getElem?_eq_some_iff.1 hi).1]

/-- What is true of a supervisor at all times. -/
structure Safe (x : Supervision) : Prop where
  monitors_le : x.monitors ≤ 1
  alive_le : x.alive ≤ 1
  /-- Once a call to stop has returned, no worker is shown or left, and whatever is done from then
  on, nothing is spawned and nothing changes. -/
  final : .returned ∈ x.stops → ∀ y, Relation.ReflTransGen Step x y →
    Stays x y ∧ y.alive = 0 ∧ y.supervisor.status = .stopped ∧ y.supervisor.pid = none ∧
      ∀ spawn, y.supervisor.monitor spawn = none
  /-- No call to stop can wait in vain. -/
  returns : ∀ (i : Nat) p, x.stops[i]? = some p →
    ∃ y, Relation.ReflTransGen Step x y ∧ y.stops[i]? = some .returned

/-- However starts, stops, cancellations, the ends of workers and the steps of the monitor are
mixed, there is at most one worker, and a stop that has returned is final. -/
theorem Reachable.safe {command : List String} {directory : Path}
    (h : Reachable command directory x) : Safe x where
  monitors_le := by
    rw [h.sound.monitors]
    exact Bool.toNat_le _
  alive_le := h.sound.staffed.countP_isNone_le
  final hreturned y hy := by
    have hover : x.supervisor.Over := h.sound.knows _ hreturned
    obtain ⟨hstays, H, hover'⟩ := h.sound.stays_of_steps hover hy
    obtain ⟨hstatus, hpid, -, hended⟩ := H.of_over hover'
    exact ⟨hstays, countP_isNone_eq_zero hended, hstatus, hpid, H.monitor_eq_none hover'⟩
  returns _ _ := h.sound.returns

/-- A worker that has been spawned before a stop is killed, and the stop returns. -/
theorem safe_stop_running : ∃ x, Reachable ["serve"] [] x ∧ x.workers = [some .signal] ∧
    .returned ∈ x.stops ∧ Safe x := by
  have tick {x : Supervision} {s : Supervisor} (h : Reachable ["serve"] [] x)
      (hs : x.supervisor.monitor (.ok 7) = some s) : Reachable ["serve"] [] _ :=
    h.tail (.monitor hs)
  have spawned := tick (tick (.tail .refl .start) rfl) rfl
  have watched := tick (tick spawned rfl) rfl
  have stopping := (watched.tail .stop).tail (.ask (i := 0) rfl)
  have killed := tick (tick stopping rfl) rfl
  have settled := tick (tick (tick killed rfl) rfl) rfl
  have stopped : Reachable ["serve"] [] _ := settled.tail (.finish (i := 0) rfl rfl)
  exact ⟨_, stopped, rfl, by decide, stopped.safe⟩

end Supervision
end PublishDesk
