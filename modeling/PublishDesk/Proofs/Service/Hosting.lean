import PublishDesk.Proofs.Bus.Dispatch
import PublishDesk.Proofs.Host.CrewRuns
import PublishDesk.Proofs.Service.Basic

/-!
# The host of a service

The host of a service is a crew whose jobs answer pings and save requests. `Service.Hosts` says that
a crew and a service stand alike: the jobs stand as those of the crowd do, and the frames that are
queued for the view are those of the messages in the queue. Whatever the crew does is a run of the
service (`Service.Hosts.turns`), and so is what is done to it (`Service.Hosts.deliver`,
`Service.Hosts.ping`, `Service.Hosts.attach`).
-/

namespace PublishDesk.Service

variable {target : String} {x : Service} {c c' : HostCrew} {k : Nat}

structure Hosts (target : String) (c : HostCrew) (x : Service) : Prop where
  target_eq : c.desk.target = target
  crew : c.Matches x.crowd
  outbound : c.desk.host.bus.outbound = some (x.queue.map (·.2.frame))

theorem posted_eq (i : Nat) (m : Mark) : posted i m = m.posted?.toList.map (i, ·) := by
  obtain _ | ⟨_ | _ | _ | _ | _ | _, _⟩ := m <;> rfl

theorem frames_posted (marks : List (Nat × Mark)) :
    (marks.flatMap fun e => posted e.1 e.2).map (·.2.frame) =
      (marks.filterMap (·.2.posted?)).map (·.frame) := by
  induction marks with
  | nil => rfl
  | cons e marks ih =>
    rw [List.flatMap_cons, List.map_append, ih, posted_eq, List.filterMap_cons]
    cases e.2.posted? <;> rfl

/-- What a turn of the crew does, the service does. Nobody else is concerned. -/
theorem Hosts.turn (H : Hosts target c x) (hx : Sound target x) (h : c.turn? = some c') :
    ∃ y, Steps target x y ∧ Hosts target c' y ∧ y.callers = x.callers ∧ y.holder = x.holder := by
  obtain ⟨l, hl⟩ := hx.orderly
  obtain ⟨crowd, marks, hsteps, hlog, hcrew, htarget, hbus, -⟩ := H.crew.turn hl h
  obtain ⟨marks', hlog', hrun⟩ := steps_of_crowd target hsteps
  obtain rfl : marks' = marks := List.append_cancel_left (hlog'.symm.trans hlog)
  refine ⟨_, hrun, ⟨htarget.trans H.target_eq, hcrew, ?_⟩, rfl, rfl⟩
  rw [hbus, Bus.outbound_postAll H.outbound, List.map_append, frames_posted]

/-- Any number of turns is a run of the service. -/
theorem Hosts.turns (H : Hosts target c x) (hx : Sound target x) (fuel : Nat) :
    ∃ y, Steps target x y ∧ Hosts target (c.turns fuel) y ∧ y.callers = x.callers ∧
      y.holder = x.holder := by
  induction fuel generalizing c x with
  | zero => exact ⟨x, .refl, H, rfl, rfl⟩
  | succ fuel ih =>
    rw [Crew.turns]
    cases hturn : c.turn? with
    | none => exact ⟨x, .refl, H, rfl, rfl⟩
    | some c' =>
      obtain ⟨y, hy, Hy, hcallers, hholder⟩ := H.turn hx hturn
      obtain ⟨z, hz, Hz, hcallers', hholder'⟩ := ih Hy (hx.steps hy)
      exact ⟨z, hy.trans hz, Hz, hcallers'.trans hcallers, hholder'.trans hholder⟩

/-- A save request starts a job for the caller whose request it is. -/
theorem Hosts.deliver (H : Hosts target c x) {phase : CallerPhase} {message : String}
    (hk : x.callers[k]? = some ⟨phase, .underway message⟩) :
    ∃ y, Step target x y ∧ Hosts target (c.handle (.requestSave message)) y := by
  refine ⟨_, .deliver hk, H.target_eq, ?_, H.outbound⟩
  rw [Origin.handle_requestSave k, H.target_eq]
  exact H.crew.start _

/-- A ping starts a job, unless another one is being answered. -/
theorem Hosts.ping (H : Hosts target c x) :
    ∃ y, Steps target x y ∧ Hosts target (c.handle .ping) y := by
  rw [HostCrew.handle]
  split
  · exact ⟨x, .refl, H⟩
  · refine ⟨_, .single .ping, H.target_eq, ?_, H.outbound⟩
    rw [H.target_eq]
    have hcrew : Crew.Matches (HostCrew.setHost { c.desk.host with polling := true } c) x.crowd :=
      H.crew.setDesk rfl rfl
    exact hcrew.start _

theorem Hosts.attach (H : Hosts target c x) (settings : ViewSettings) :
    Hosts target c.drain.2 (x.attach settings) where
  target_eq := H.target_eq
  crew := H.crew.setDesk rfl rfl
  outbound := congrArg (Option.map fun _ => []) H.outbound

end PublishDesk.Service
