import PublishDesk.Worker.Supervisor

/-!
# The steps of the monitor

`MonitorStep` lists what one step of the monitor can do, and `Supervisor.exists_monitor_iff` says
that the list is complete. Once the supervisor has been cancelled, every step brings the monitor
nearer to its end (`MonitorPhase.rank`), and it is never stuck (`Supervisor.exists_monitorStep`).
-/

namespace PublishDesk

inductive MonitorStep (s : Supervisor) : Supervisor → Prop
  | enter (h : s.phase = .entering) : MonitorStep s ((s.mark .starting none).goTo .spawning)
  | decline (h : s.phase = .spawning) (hc : s.cancelled) : MonitorStep s (s.goTo .declined)
  | refuse (h : s.phase = .spawning) (hc : s.cancelled = false) (hs : s.command.isEmpty) :
    MonitorStep s (s.goTo (.failed .emptyCommand))
  | fail (e : StartFailure) (h : s.phase = .spawning) (hc : s.cancelled = false)
    (hs : s.command.isEmpty = false) :
    MonitorStep s ({ s with spawns := s.spawns + 1 }.goTo (.failed e))
  | spawn (pid : Nat) (h : s.phase = .spawning) (hc : s.cancelled = false)
    (hs : s.command.isEmpty = false) :
    MonitorStep s
      ({ s with spawns := s.spawns + 1, child := some { pid := pid } }.goTo (.spawned pid))
  | declined (h : s.phase = .declined) : MonitorStep s ((s.mark .stopped none).goTo .settling)
  | failed (e : StartFailure) (h : s.phase = .failed e) :
    MonitorStep s
      ((({ s with spawnFailed := true }.mark .stopped none).emit (.spawnFailed e)).goTo .settling)
  | spawned (pid : Nat) (h : s.phase = .spawned pid) :
    MonitorStep s ((s.mark .running (some pid)).goTo (.announcing pid))
  | announce (pid : Nat) (h : s.phase = .announcing pid) :
    MonitorStep s ((s.emit (.spawned pid)).goTo (.waiting pid))
  | terminate (pid : Nat) (h : s.phase = .waiting pid) (hc : s.cancelled) :
    MonitorStep s ((s.mark .terminating (some pid)).goTo .killing)
  | exit (pid : Nat) (c : Child) (e : ExitStatus) (h : s.phase = .waiting pid)
    (hc : s.cancelled = false) (hchild : s.child = some c) (he : c.exit = some e) :
    MonitorStep s (({ s with child := none }.emit (.exited e)).goTo .exited)
  | kill (h : s.phase = .killing) : MonitorStep s ((s.childExits .signal).goTo .reaping)
  | reap (c : Child) (e : ExitStatus) (h : s.phase = .reaping) (hchild : s.child = some c)
    (he : c.exit = some e) :
    MonitorStep s (({ s with child := none }.emit (.exited e)).goTo .reaped)
  | reaped (h : s.phase = .reaped) : MonitorStep s ((s.mark .stopped none).goTo .settling)
  | giveUp (h : s.phase = .exited) (hc : s.cancelled) :
    MonitorStep s ((s.mark .stopped none).goTo .settling)
  | again (h : s.phase = .exited) (hc : s.cancelled = false) :
    MonitorStep s ({ s with restarts := s.restarts + 1 }.goTo .entering)
  | settle (h : s.phase = .settling) : MonitorStep s ((s.mark .stopped none).goTo .settled)

namespace Supervisor

variable {s s' : Supervisor}

/-- The monitor does one of the steps of the list. -/
theorem monitorStep_of_monitor {spawn : Except StartFailure Nat} (h : s.monitor spawn = some s') :
    MonitorStep s s' := by
  unfold monitor at h
  split at h
  · cases h
  · cases h
  · next hp =>
    cases h
    exact .enter hp
  · next hp =>
    split at h
    · next hc =>
      cases h
      exact .decline hp hc
    · next hc =>
      have hc := eq_false_of_ne_true hc
      split at h
      · next hs =>
        cases h
        exact .refuse hp hc hs
      · next hs =>
        have hs := eq_false_of_ne_true hs
        simp only at h
        split at h <;> cases h
        · exact .fail _ hp hc hs
        · exact .spawn _ hp hc hs
  · next hp =>
    cases h
    exact .declined hp
  · next hp =>
    cases h
    exact .failed _ hp
  · next hp =>
    cases h
    exact .spawned _ hp
  · next hp =>
    cases h
    exact .announce _ hp
  · next hp =>
    split at h
    · next hc =>
      cases h
      exact .terminate _ hp hc
    · next hc =>
      have hc := eq_false_of_ne_true hc
      split at h <;> cases h
      next hchild => exact .exit _ _ _ hp hc hchild rfl
  · next hp =>
    cases h
    exact .kill hp
  · next hp =>
    split at h <;> cases h
    next hchild => exact .reap _ _ hp hchild rfl
  · next hp =>
    cases h
    exact .reaped hp
  · next hp =>
    split at h
    · next hc =>
      cases h
      exact .giveUp hp hc
    · next hc =>
      cases h
      exact .again hp (eq_false_of_ne_true hc)
  · next hp =>
    cases h
    exact .settle hp

/-- The list is complete, and holds nothing that the monitor cannot do. -/
theorem exists_monitor_iff : (∃ spawn, s.monitor spawn = some s') ↔ MonitorStep s s' := by
  refine ⟨fun ⟨_, h⟩ => monitorStep_of_monitor h, fun h => ?_⟩
  cases h with
  | spawn pid h hc hs => exact ⟨.ok pid, by simp [monitor, h, hc, hs]⟩
  | fail e h hc hs => exact ⟨.error e, by simp [monitor, h, hc, hs]⟩
  | exit pid c e h hc hchild he =>
    obtain ⟨p, exit⟩ := c
    subst he
    exact ⟨.ok 0, by simp [monitor, h, hc, hchild]⟩
  | reap c e h hchild he =>
    obtain ⟨p, exit⟩ := c
    subst he
    exact ⟨.ok 0, by simp [monitor, h, hchild]⟩
  | decline h hc | giveUp h hc | again h hc => exact ⟨.ok 0, by simp [monitor, h, hc]⟩
  | refuse h hc hs => exact ⟨.ok 0, by simp [monitor, h, hc, hs]⟩
  | terminate pid h hc => exact ⟨.ok 0, by simp [monitor, h, hc]⟩
  | failed _ h | spawned _ h | announce _ h => exact ⟨.ok 0, by simp [monitor, h]⟩
  | enter h | declined h | kill h | reaped h | settle h => exact ⟨.ok 0, by simp [monitor, h]⟩

end Supervisor

/-! ## What a step leaves as it is -/

namespace MonitorStep

variable {s s' : Supervisor}

theorem started_eq (h : MonitorStep s s') : s'.started = s.started := by cases h <;> rfl

theorem cancelled_eq (h : MonitorStep s s') : s'.cancelled = s.cancelled := by cases h <;> rfl

/-- Without a monitor there are no steps, and a monitor that has settled makes none. -/
theorem phase_ne (h : MonitorStep s s') : s.phase ≠ .absent ∧ s.phase ≠ .settled := by
  cases h <;> simp [*]

theorem phase_ne_absent (h : MonitorStep s s') : s'.phase ≠ .absent := by
  cases h <;> exact nofun

/-- The monitor settles by showing that there is no worker. -/
theorem shows_stopped (h : MonitorStep s s') (hs : s'.phase = .settled) :
    s'.status = .stopped ∧ s'.pid = none := by
  cases h with
  | settle _ => exact ⟨rfl, rfl⟩
  | _ => cases hs

end MonitorStep

/-! ## The way to the end -/

/-- How many steps a monitor that has been cancelled has ahead at most. -/
def MonitorPhase.rank : MonitorPhase → Nat
  | .absent | .settled => 0
  | .settling => 1
  | .declined | .failed _ | .reaped | .exited => 2
  | .spawning | .reaping => 3
  | .entering | .killing => 4
  | .waiting _ => 5
  | .announcing _ => 6
  | .spawned _ => 7

/-- A monitor that has been cancelled gets on without help. -/
theorem Supervisor.exists_monitorStep {s : Supervisor} (hc : s.cancelled) (ha : s.phase ≠ .absent)
    (hs : s.phase ≠ .settled)
    (hr : s.phase = .reaping → ∃ c e, s.child = some c ∧ c.exit = some e) :
    ∃ s', MonitorStep s s' ∧ s'.cancelled ∧ s'.started = s.started ∧ s'.phase ≠ .absent ∧
      s'.phase.rank < s.phase.rank := by
  cases h : s.phase with
  | absent => exact absurd h ha
  | settled => exact absurd h hs
  | entering => exact ⟨_, .enter h, hc, rfl, nofun, Nat.lt_succ_self _⟩
  | spawning => exact ⟨_, .decline h hc, hc, rfl, nofun, Nat.lt_succ_self _⟩
  | declined => exact ⟨_, .declined h, hc, rfl, nofun, Nat.lt_succ_self _⟩
  | failed e => exact ⟨_, .failed e h, hc, rfl, nofun, Nat.lt_succ_self _⟩
  | spawned pid => exact ⟨_, .spawned pid h, hc, rfl, nofun, Nat.lt_succ_self _⟩
  | announcing pid => exact ⟨_, .announce pid h, hc, rfl, nofun, Nat.lt_succ_self _⟩
  | waiting pid => exact ⟨_, .terminate pid h hc, hc, rfl, nofun, Nat.lt_succ_self _⟩
  | killing => exact ⟨_, .kill h, hc, rfl, nofun, Nat.lt_succ_self _⟩
  | reaping =>
    obtain ⟨c, e, hchild, he⟩ := hr h
    exact ⟨_, .reap c e h hchild he, hc, rfl, nofun, Nat.lt_succ_self _⟩
  | reaped => exact ⟨_, .reaped h, hc, rfl, nofun, Nat.lt_succ_self _⟩
  | exited => exact ⟨_, .giveUp h hc, hc, rfl, nofun, Nat.lt_succ_self _⟩
  | settling => exact ⟨_, .settle h, hc, rfl, nofun, Nat.lt_succ_self _⟩

end PublishDesk
