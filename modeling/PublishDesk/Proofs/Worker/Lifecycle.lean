import PublishDesk.Proofs.Worker.Supervision

/-!
# The lives of workers

What a supervisor tells, shows and counts is changed at different steps of the monitor.
`Supervisor.Accounted` says for every phase of the monitor how the three stand to each other, and
every step keeps it. So workers live one after the other, a spawn that fails is the last one, and
while the monitor watches a worker all counts agree (`Supervision.Reachable.ordered_lives`). Counts
have no upper bound here.
-/

namespace PublishDesk

/-- The events of workers that have been spawned and have ended, one after the other. -/
def lifeEvents (lives : List (Nat × ExitStatus)) : List WorkerEvent :=
  lives.flatMap fun l => [.spawned l.1, .exited l.2]

def WorkerEvent.isExit : WorkerEvent → Bool
  | .exited _ => true
  | _ => false

theorem lifeEvents_concat (lives : List (Nat × ExitStatus)) (pid : Nat) (exit : ExitStatus) :
    lifeEvents (lives ++ [(pid, exit)]) = lifeEvents lives ++ [.spawned pid] ++ [.exited exit] := by
  rw [lifeEvents, List.flatMap_append, List.flatMap_singleton, List.append_assoc, lifeEvents,
    List.singleton_append]

theorem countP_lifeEvents (lives : List (Nat × ExitStatus)) :
    (lifeEvents lives).countP WorkerEvent.isExit = lives.length := by
  induction lives with
  | nil => rfl
  | cons l lives ih =>
    rw [lifeEvents, List.flatMap_cons, ← lifeEvents, List.countP_append, ih, List.length_cons,
      Nat.add_comm]
    rfl

theorem not_spawnFailed_mem_lifeEvents (lives : List (Nat × ExitStatus)) (e : StartFailure) :
    .spawnFailed e ∉ lifeEvents lives := by
  intro h
  obtain ⟨l, -, hl⟩ := List.mem_flatMap.1 h
  simp at hl

namespace MonitorPhase

/-- What has been told beyond whole lives. -/
def Tells (spawnFailed : Bool) (rest : List WorkerEvent) : MonitorPhase → Prop
  | .waiting pid => rest = [.spawned pid] ∧ spawnFailed = false
  | .killing | .reaping => (∃ pid, rest = [.spawned pid]) ∧ spawnFailed = false
  | .settling | .settled =>
    rest = [] ∧ spawnFailed = false ∨ (∃ e, rest = [.spawnFailed e]) ∧ spawnFailed = true
  | _ => rest = [] ∧ spawnFailed = false

/-- How the numbers of attempts and of lives that have ended go with that of restarts. -/
def Counts (restarts spawns ends : Nat) : MonitorPhase → Prop
  | .absent | .entering | .spawning | .declined => spawns = restarts ∧ ends = restarts
  | .failed _ => (spawns = restarts ∨ spawns = restarts + 1) ∧ ends = restarts
  | .spawned _ | .announcing _ | .waiting _ | .killing | .reaping =>
    spawns = restarts + 1 ∧ ends = restarts
  | .exited | .reaped => spawns = restarts + 1 ∧ ends = restarts + 1
  | .settling | .settled => spawns = restarts ∨ spawns = restarts + 1

/-- The worker that has been spawned and is to be watched. -/
def worker? : MonitorPhase → Option Nat
  | .spawned pid | .announcing pid | .waiting pid => some pid
  | _ => none

/-- The worker that is shown. -/
def shown? : MonitorPhase → Option Nat
  | .announcing pid | .waiting pid => some pid
  | _ => none

theorem worker?_of_shown? {phase : MonitorPhase} {pid : Nat} (h : phase.shown? = some pid) :
    phase.worker? = some pid := by
  cases phase with
  | announcing p | waiting p => exact h
  | _ => cases h

theorem Counts.spawns_eq {restarts spawns ends : Nat} {phase : MonitorPhase}
    (h : phase.Counts restarts spawns ends) : spawns = restarts ∨ spawns = restarts + 1 := by
  cases phase with
  | absent | entering | spawning | declined => exact .inl h.1
  | failed e => exact h.1
  | spawned pid | announcing pid | waiting pid => exact .inr h.1
  | killing | reaping | exited | reaped => exact .inr h.1
  | settling | settled => exact h

/-- A failure to spawn is told, and known, only at the end. -/
theorem Tells.of_spawnFailed {rest : List WorkerEvent} {phase : MonitorPhase}
    (h : phase.Tells true rest) : phase = .settling ∨ phase = .settled := by
  cases phase with
  | settling => exact .inl rfl
  | settled => exact .inr rfl
  | _ => exact absurd h.2 nofun

theorem Tells.cases {spawnFailed : Bool} {rest : List WorkerEvent} {phase : MonitorPhase}
    (h : phase.Tells spawnFailed rest) :
    rest = [] ∧ spawnFailed = false ∨ (∃ pid, rest = [.spawned pid]) ∧ spawnFailed = false ∨
      (∃ e, rest = [.spawnFailed e]) ∧ spawnFailed = true := by
  cases phase with
  | waiting pid => exact .inr (.inl ⟨⟨pid, h.1⟩, h.2⟩)
  | killing | reaping => exact .inr (.inl h)
  | settling | settled => exact h.imp id .inr
  | _ => exact .inl h

end MonitorPhase

namespace Supervisor

structure Accounted (s : Supervisor) : Prop where
  told : ∃ lives rest, s.events = lifeEvents lives ++ rest ∧ s.phase.Tells s.spawnFailed rest ∧
    s.phase.Counts s.restarts s.spawns lives.length
  child : ∀ pid, s.phase.worker? = some pid → ∃ exit, s.child = some ⟨pid, exit⟩
  shown : ∀ pid, s.phase.shown? = some pid → s.status = .running ∧ s.pid = some pid
  failed : s.spawnFailed → s.status = .stopped ∧ s.pid = none

variable {s s' : Supervisor}

theorem accounted_new (command : List String) (directory : Path) :
    Accounted { command := command, directory := directory } where
  told := ⟨[], [], rfl, ⟨rfl, rfl⟩, ⟨rfl, rfl⟩⟩
  child := nofun
  shown := nofun
  failed := nofun

/-- What is not changed by others than the monitor. -/
theorem Accounted.congr (H : Accounted s) (hphase : s'.phase = s.phase)
    (hevents : s'.events = s.events) (hfailed : s'.spawnFailed = s.spawnFailed)
    (hrestarts : s'.restarts = s.restarts) (hspawns : s'.spawns = s.spawns)
    (hstatus : s'.status = s.status) (hpid : s'.pid = s.pid)
    (hchild : s'.child.map Child.pid = s.child.map Child.pid) : Accounted s' where
  told := by
    rw [hphase, hevents, hfailed, hrestarts, hspawns]
    exact H.told
  child pid hp := by
    rw [hphase] at hp
    obtain ⟨exit, hexit⟩ := H.child pid hp
    rw [hexit] at hchild
    obtain ⟨⟨_, exit'⟩, hc, rfl⟩ := Option.map_eq_some_iff.1 hchild
    exact ⟨exit', hc⟩
  shown := by
    rw [hphase, hstatus, hpid]
    exact H.shown
  failed := by
    rw [hfailed, hstatus, hpid]
    exact H.failed

theorem Accounted.childExits (H : Accounted s) (exit : ExitStatus) :
    Accounted (s.childExits exit) := by
  refine H.congr rfl rfl rfl rfl rfl rfl rfl ?_
  change (s.child.map _).map Child.pid = _
  rw [Option.map_map]
  rfl

/-- Where no worker is to be watched, there is nothing to be said of one. -/
theorem Accounted.of_told {lives : List (Nat × ExitStatus)} {rest : List WorkerEvent}
    (hevents : s.events = lifeEvents lives ++ rest) (htells : s.phase.Tells s.spawnFailed rest)
    (hcounts : s.phase.Counts s.restarts s.spawns lives.length) (hworker : s.phase.worker? = none)
    (hfailed : s.spawnFailed → s.status = .stopped ∧ s.pid = none) : Accounted s where
  told := ⟨lives, rest, hevents, htells, hcounts⟩
  child _ hp := absurd (hp.symm.trans hworker) nofun
  shown _ hp := absurd ((MonitorPhase.worker?_of_shown? hp).symm.trans hworker) nofun
  failed := hfailed

theorem Accounted.monitor (H : Accounted s) (h : MonitorStep s s') : Accounted s' := by
  obtain ⟨lives, rest, hevents, htells, hcounts⟩ := H.told
  cases h with
  | enter h =>
    rw [h] at htells hcounts
    obtain ⟨rfl, hfailed⟩ := htells
    refine .of_told hevents ⟨rfl, hfailed⟩ hcounts rfl fun hf => ?_
    exact absurd (hf.symm.trans hfailed) nofun
  | decline h hc =>
    rw [h] at htells hcounts
    exact .of_told hevents htells hcounts rfl H.failed
  | refuse h hc hs =>
    rw [h] at htells hcounts
    exact .of_told hevents htells ⟨.inl hcounts.1, hcounts.2⟩ rfl H.failed
  | fail e h hc hs =>
    rw [h] at htells hcounts
    exact .of_told hevents htells ⟨.inr (congrArg (· + 1) hcounts.1), hcounts.2⟩ rfl H.failed
  | spawn pid h hc hs =>
    rw [h] at htells hcounts
    refine ⟨⟨lives, rest, hevents, htells, congrArg (· + 1) hcounts.1, hcounts.2⟩, ?_, nofun,
      H.failed⟩
    rintro _ ⟨⟩
    exact ⟨none, rfl⟩
  | declined h =>
    rw [h] at htells hcounts
    exact .of_told hevents (.inl htells) (.inl hcounts.1) rfl fun _ => ⟨rfl, rfl⟩
  | giveUp h _ | reaped h =>
    rw [h] at htells hcounts
    exact .of_told hevents (.inl htells) (.inr hcounts.1) rfl fun _ => ⟨rfl, rfl⟩
  | failed e h =>
    rw [h] at htells hcounts
    obtain ⟨rfl, -⟩ := htells
    rw [List.append_nil] at hevents
    have hevents' : s.events ++ [.spawnFailed e] = lifeEvents lives ++ [.spawnFailed e] :=
      congrArg (· ++ _) hevents
    exact .of_told hevents' (.inr ⟨⟨e, rfl⟩, rfl⟩) hcounts.1 rfl fun _ => ⟨rfl, rfl⟩
  | spawned pid h =>
    rw [h] at htells hcounts
    refine ⟨⟨lives, rest, hevents, htells, hcounts⟩, ?_, ?_, fun hf => ?_⟩
    · rintro _ ⟨⟩
      exact H.child pid (h ▸ rfl)
    · rintro _ ⟨⟩
      exact ⟨rfl, rfl⟩
    · exact absurd (hf.symm.trans htells.2) nofun
  | announce pid h =>
    rw [h] at htells hcounts
    obtain ⟨rfl, hfailed⟩ := htells
    rw [List.append_nil] at hevents
    refine ⟨⟨lives, [.spawned pid], congrArg (· ++ _) hevents, ⟨rfl, hfailed⟩, hcounts⟩, ?_, ?_,
      fun hf => ?_⟩
    · rintro _ ⟨⟩
      exact H.child pid (h ▸ rfl)
    · rintro _ ⟨⟩
      exact H.shown pid (h ▸ rfl)
    · exact absurd (hf.symm.trans hfailed) nofun
  | terminate pid h hc =>
    rw [h] at htells hcounts
    refine .of_told hevents ⟨⟨pid, htells.1⟩, htells.2⟩ hcounts rfl fun hf => ?_
    exact absurd (hf.symm.trans htells.2) nofun
  | exit pid c e h hc hchild he =>
    rw [h] at htells hcounts
    obtain ⟨rfl, hfailed⟩ := htells
    have hevents' : s.events ++ [.exited e] = lifeEvents (lives ++ [(pid, e)]) ++ [] := by
      rw [List.append_nil, lifeEvents_concat, hevents]
    refine .of_told hevents' ⟨rfl, hfailed⟩ ⟨hcounts.1, ?_⟩ rfl H.failed
    rw [List.length_append, hcounts.2]
    rfl
  | kill h =>
    rw [h] at htells hcounts
    exact .of_told hevents htells hcounts rfl H.failed
  | reap c e h hchild he =>
    rw [h] at htells hcounts
    obtain ⟨⟨pid, rfl⟩, hfailed⟩ := htells
    have hevents' : s.events ++ [.exited e] = lifeEvents (lives ++ [(pid, e)]) ++ [] := by
      rw [List.append_nil, lifeEvents_concat, hevents]
    refine .of_told hevents' ⟨rfl, hfailed⟩ ⟨hcounts.1, ?_⟩ rfl H.failed
    rw [List.length_append, hcounts.2]
    rfl
  | again h hc =>
    rw [h] at htells hcounts
    exact .of_told hevents htells hcounts rfl H.failed
  | settle h =>
    rw [h] at htells hcounts
    exact .of_told hevents htells hcounts rfl fun _ => ⟨rfl, rfl⟩

end Supervisor

namespace Supervision

open Supervisor (Accounted)

abbrev Steps : Supervision → Supervision → Prop := Relation.ReflTransGen Step

variable {x y : Supervision}

theorem accounted_step (H : Sound x) (ha : Accounted x.supervisor) (h : Step x y) :
    Accounted y.supervisor := by
  cases h with
  | start =>
    dsimp only
    rw [Supervisor.start_eq]
    split
    · next h =>
      simp only [Supervisor.admitsStart, Bool.not_eq_true', Bool.or_eq_false_iff] at h
      obtain ⟨lives, rest, hevents, htells, hcounts⟩ := ha.told
      rw [H.absent.2 h.1.1] at htells hcounts
      refine .of_told hevents htells hcounts rfl fun hf => ?_
      cases hf.symm.trans htells.2
    · exact ha
  | cancel | stop => exact ha.congr rfl rfl rfl rfl rfl rfl rfl rfl
  | ask _ | finish _ _ => exact ha
  | close h =>
    -- The call has found no start, so there is no worker to be shown.
    obtain ⟨-, hstarted⟩ := H.knows _ (List.mem_of_getElem? h)
    have hstatus : WorkerStatus.stopped = x.supervisor.status :=
      (H.idle (.inl (H.absent.2 hstarted))).1.symm
    exact ha.congr rfl rfl rfl rfl rfl hstatus rfl rfl
  | monitor h => exact ha.monitor (Supervisor.monitorStep_of_monitor h)
  | exit k e =>
    dsimp only
    split
    · exact ha.childExits e
    · exact ha

theorem Reachable.accounted {command : List String} {directory : Path}
    (h : Reachable command directory x) : Accounted x.supervisor := by
  induction h with
  | refl => exact Supervisor.accounted_new command directory
  | tail h hs ih => exact accounted_step (Reachable.sound h) ih hs

/-! ## What is final -/

/-- No worker is restarted after a cancellation. -/
theorem Step.restarts_eq (h : Step x y) (hc : x.supervisor.cancelled) :
    y.supervisor.cancelled ∧ y.supervisor.restarts = x.supervisor.restarts := by
  cases h with
  | start =>
    dsimp only
    rw [Supervisor.start_eq]
    split <;> exact ⟨hc, rfl⟩
  | cancel | stop => exact ⟨rfl, rfl⟩
  | ask _ | close _ | finish _ _ => exact ⟨hc, rfl⟩
  | monitor h =>
    have h := Supervisor.monitorStep_of_monitor h
    refine ⟨h.cancelled_eq.trans hc, ?_⟩
    cases h with
    | again _ hno => exact absurd (hc.symm.trans hno) nofun
    | _ => rfl
  | exit k e =>
    dsimp only
    split <;> exact ⟨hc, rfl⟩

theorem Steps.restarts_eq (h : Steps x y) (hc : x.supervisor.cancelled) :
    y.supervisor.restarts = x.supervisor.restarts := by
  suffices h : y.supervisor.cancelled ∧ y.supervisor.restarts = x.supervisor.restarts from h.2
  induction h with
  | refl => exact ⟨hc, rfl⟩
  | tail _ hs ih =>
    obtain ⟨hcancelled, hrestarts⟩ := hs.restarts_eq ih.1
    exact ⟨hcancelled, hrestarts.trans ih.2⟩

/-- An attempt to spawn has failed, and its failure has yet to be told. -/
theorem Step.of_failed (H : Sound x) {e : StartFailure} (hp : x.supervisor.phase = .failed e)
    (h : Step x y) : y.supervisor.spawns = x.supervisor.spawns ∧
      (y.supervisor.phase = .failed e ∨ y.supervisor.spawnFailed) := by
  cases h with
  | start =>
    dsimp only
    rw [Supervisor.start_eq]
    split
    · next h =>
      simp only [Supervisor.admitsStart, Bool.not_eq_true', Bool.or_eq_false_iff] at h
      cases hp.symm.trans (H.absent.2 h.1.1)
    · exact ⟨rfl, .inl hp⟩
  | cancel | stop | ask _ | close _ | finish _ _ => exact ⟨rfl, .inl hp⟩
  | monitor h =>
    simp only [Supervisor.monitor, hp, Option.some.injEq] at h
    subst h
    exact ⟨rfl, .inr rfl⟩
  | exit k e =>
    dsimp only
    split <;> exact ⟨rfl, .inl hp⟩

/-- After a failed attempt nothing is told or attempted, and no worker is shown. -/
theorem Step.of_spawnFailed (ha : Accounted x.supervisor)
    (hf : x.supervisor.spawnFailed) (h : Step x y) :
    y.supervisor.spawnFailed ∧ y.supervisor.spawns = x.supervisor.spawns ∧
      y.supervisor.events = x.supervisor.events := by
  have hno : x.supervisor.admitsStart = false := by simp [Supervisor.admitsStart, hf]
  cases h with
  | start =>
    dsimp only
    rw [Supervisor.start_eq, hno]
    exact ⟨hf, rfl, rfl⟩
  | cancel | stop | ask _ | close _ | finish _ _ => exact ⟨hf, rfl, rfl⟩
  | monitor h =>
    obtain ⟨lives, rest, -, htells, -⟩ := ha.told
    rw [hf] at htells
    rcases htells.of_spawnFailed with hp | hp
    · simp only [Supervisor.monitor, hp, Option.some.injEq] at h
      subst h
      exact ⟨hf, rfl, rfl⟩
    · simp only [Supervisor.monitor, hp, reduceCtorEq] at h
  | exit k e =>
    dsimp only
    split <;> exact ⟨hf, rfl, rfl⟩

/-- Whatever is done after a failed attempt, it becomes known, and there is no other. -/
theorem Steps.of_failed (H : Sound x) (ha : Accounted x.supervisor) {e : StartFailure}
    (hp : x.supervisor.phase = .failed e) (h : Steps x y) :
    y.supervisor.spawns = x.supervisor.spawns ∧
      (y.supervisor.phase = .failed e ∨ y.supervisor.spawnFailed) := by
  suffices h : (Sound y ∧ Accounted y.supervisor) ∧ y.supervisor.spawns = x.supervisor.spawns ∧
      (y.supervisor.phase = .failed e ∨ y.supervisor.spawnFailed) from h.2
  induction h with
  | refl => exact ⟨⟨H, ha⟩, rfl, .inl hp⟩
  | tail _ hs ih =>
    obtain ⟨⟨H, ha⟩, hspawns, hp | hf⟩ := ih
    · obtain ⟨hspawns', hp'⟩ := hs.of_failed H hp
      exact ⟨⟨H.step hs, accounted_step H ha hs⟩, hspawns'.trans hspawns, hp'⟩
    · obtain ⟨hf', hspawns', -⟩ := hs.of_spawnFailed ha hf
      exact ⟨⟨H.step hs, accounted_step H ha hs⟩, hspawns'.trans hspawns, .inr hf'⟩

theorem Steps.of_spawnFailed (H : Sound x) (ha : Accounted x.supervisor)
    (hf : x.supervisor.spawnFailed) (h : Steps x y) :
    y.supervisor.spawnFailed ∧ y.supervisor.status = .stopped ∧
      y.supervisor.spawns = x.supervisor.spawns ∧ y.supervisor.events = x.supervisor.events := by
  suffices h : (Sound y ∧ Accounted y.supervisor) ∧ y.supervisor.spawnFailed ∧
      y.supervisor.spawns = x.supervisor.spawns ∧
      y.supervisor.events = x.supervisor.events by
    obtain ⟨⟨-, ha'⟩, hf', hspawns, hevents⟩ := h
    exact ⟨hf', (ha'.failed hf').1, hspawns, hevents⟩
  induction h with
  | refl => exact ⟨⟨H, ha⟩, hf, rfl, rfl⟩
  | tail _ hs ih =>
    obtain ⟨⟨H, ha⟩, hf, hspawns, hevents⟩ := ih
    obtain ⟨hf', hspawns', hevents'⟩ := hs.of_spawnFailed ha hf
    exact ⟨⟨H.step hs, accounted_step H ha hs⟩, hf', hspawns'.trans hspawns,
      hevents'.trans hevents⟩

/-- What is true of the lives of workers at all times. -/
structure Ordered (x : Supervision) : Prop where
  /-- Workers are spawned and end one after the other, and a spawn that fails is the last one. -/
  order : ∃ (lives : List (Nat × ExitStatus)) (failure : Option StartFailure),
    x.supervisor.events <+: lifeEvents lives ++ failure.toList.map .spawnFailed
  spawns : x.supervisor.spawns = x.supervisor.restarts ∨
    x.supervisor.spawns = x.supervisor.restarts + 1
  /-- While the monitor waits for a worker to end or for a cancellation, that worker is shown, and
  all counts agree. -/
  parked : ∀ pid, x.supervisor.phase = .waiting pid →
    x.supervisor.status = .running ∧ x.supervisor.pid = some pid ∧
      (∃ exit, x.supervisor.child = some ⟨pid, exit⟩) ∧
      x.supervisor.spawns = x.supervisor.restarts + 1 ∧
      x.supervisor.events.countP WorkerEvent.isExit = x.supervisor.restarts
  /-- An exit that is told, or looked into, after a cancellation is followed by no restart. -/
  late : x.supervisor.cancelled → ∀ y, Step x y →
    x.supervisor.phase = .exited ∨
      (∃ e, y.supervisor.events = x.supervisor.events ++ [.exited e]) →
    ∀ z, Steps y z → z.supervisor.restarts = x.supervisor.restarts
  /-- A failed attempt becomes known, and whatever is done, there is no other. -/
  failing : ∀ e, x.supervisor.phase = .failed e → ∀ y, Steps x y →
    y.supervisor.spawns = x.supervisor.spawns ∧
      (y.supervisor.phase = .failed e ∨ y.supervisor.spawnFailed)
  told : x.supervisor.spawnFailed ↔ ∃ e, .spawnFailed e ∈ x.supervisor.events
  failed : x.supervisor.spawnFailed → ∀ y, Steps x y →
    y.supervisor.spawnFailed ∧ y.supervisor.status = .stopped ∧
      y.supervisor.spawns = x.supervisor.spawns ∧ y.supervisor.events = x.supervisor.events

/-- However starts, stops, cancellations and the ends of workers are mixed, workers live one after
the other, and what is told, shown and counted of them agrees. -/
theorem Reachable.ordered_lives {command : List String} {directory : Path}
    (h : Reachable command directory x) : Ordered x := by
  have H := Reachable.sound h
  have ha := Reachable.accounted h
  obtain ⟨lives, rest, hevents, htells, hcounts⟩ := ha.told
  constructor
  case order =>
    rw [hevents]
    obtain ⟨rfl, -⟩ | ⟨⟨pid, rfl⟩, -⟩ | ⟨⟨e, rfl⟩, -⟩ := htells.cases
    · exact ⟨lives, none, List.prefix_rfl⟩
    · refine ⟨lives ++ [(pid, .signal)], none, [.exited .signal], ?_⟩
      rw [lifeEvents_concat]
      exact (List.append_nil _).symm
    · exact ⟨lives, some e, List.prefix_rfl⟩
  case spawns => exact hcounts.spawns_eq
  case parked =>
    intro pid hp
    obtain ⟨hstatus, hpid⟩ := ha.shown pid (hp ▸ rfl)
    rw [hp] at htells hcounts
    refine ⟨hstatus, hpid, ha.child pid (hp ▸ rfl), hcounts.1, ?_⟩
    rw [hevents, htells.1, List.countP_append, countP_lifeEvents, hcounts.2]
    rfl
  case late =>
    intro hc y hy _ z hz
    obtain ⟨hc', hrestarts⟩ := hy.restarts_eq hc
    exact (Steps.restarts_eq hz hc').trans hrestarts
  case failing =>
    intro e hp y hy
    exact Steps.of_failed H ha hp hy
  case told =>
    have hlives := not_spawnFailed_mem_lifeEvents lives
    rw [hevents]
    obtain ⟨rfl, hf⟩ | ⟨⟨pid, rfl⟩, hf⟩ | ⟨⟨e, rfl⟩, hf⟩ := htells.cases
    · simp [hf, hlives]
    · simp [hf, hlives]
    · simp [hf]
  case failed =>
    intro hf y hy
    exact Steps.of_spawnFailed H ha hf hy

/-- A worker that has ended is followed by another one, which is watched. -/
theorem ordered_lives_restarted : ∃ x, Reachable ["serve"] [] x ∧
    x.supervisor.events = [.spawned 7, .exited (.code 1), .spawned 8] ∧
    x.supervisor.phase = .waiting 8 ∧ Ordered x := by
  have tick {x : Supervision} {s : Supervisor} (spawn : Except StartFailure Nat)
      (h : Reachable ["serve"] [] x) (hs : x.supervisor.monitor spawn = some s) :
      Reachable ["serve"] [] _ := h.tail (.monitor hs)
  have spawned := tick (.ok 7) (tick (.ok 7) (.tail .refl .start) rfl) rfl
  have watched := tick (.ok 7) (tick (.ok 7) spawned rfl) rfl
  have ended := tick (.ok 7) (watched.tail (.exit 0 (.code 1))) rfl
  have again := tick (.ok 8) (tick (.ok 8) (tick (.ok 8) ended rfl) rfl) rfl
  have watched' := tick (.ok 8) (tick (.ok 8) again rfl) rfl
  exact ⟨_, watched', rfl, rfl, watched'.ordered_lives⟩

end Supervision
end PublishDesk
