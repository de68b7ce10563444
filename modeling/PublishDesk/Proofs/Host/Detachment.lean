import PublishDesk.Proofs.Bus.Dispatch
import PublishDesk.Proofs.Host.Polls
import PublishDesk.Proofs.Host.Requests

/-!
# Letting go of a host

The handlers on a bus do not hold on to the host, so a host that everybody has let go of takes no
more messages. But each of its jobs holds on to it until it ends, and as long as one does, the
handlers find the host and start further jobs. `BoundHost.Reachable.letGo` says what letting go of a
host comes to, and `BoundHost.Holds` that a `HostCrew` is such a host.
-/

namespace PublishDesk

namespace Standing

variable {α : Type}

def isDone : Standing α → Bool
  | .ready (.done _) => true
  | _ => false

theorem eq_of_isDone {s : Standing Unit} (h : s.isDone) : s = .ready (.done ()) := by
  unfold isDone at h
  split at h
  · rfl
  · cases h

end Standing

theorem Mark.Advances.not_isDone {α : Type} {m : Mark} {s s' : Standing α} (h : m.Advances s s') :
    s.isDone = false := by
  cases h <;> rfl

/-- A host whose jobs go on side by side, the bus it is attached to, and whether anybody besides the
jobs holds on to it. -/
structure BoundHost where
  bus : Bus Unit
  kept : Bool := true
  host : HostCrowd := {}

namespace BoundHost

def attached : BoundHost where
  bus := (Bus.empty.register .ping ()).register .requestSave ()

/-- No job is under way. -/
def AtRest (x : BoundHost) : Prop := ∀ s ∈ x.host.crowd.jobs, s.isDone

instance (x : BoundHost) : Decidable x.AtRest := inferInstanceAs (Decidable (∀ _ ∈ _, _))

/-- Whether the handlers find the host: somebody holds on to it, or a job does. -/
def IsThere (x : BoundHost) : Prop := x.kept ∨ ¬ x.AtRest

instance (x : BoundHost) : Decidable x.IsThere := inferInstanceAs (Decidable (_ ∨ _))

def dispatch (target frame : String) (x : BoundHost) : Except BusError Kind × BoundHost :=
  match x.bus.route frame with
  | .error e => (.error e, x)
  | .ok (k, _, m) =>
    (.ok k, if m.kind = k ∧ x.IsThere then { x with host := x.host.handle target m } else x)

def drop (x : BoundHost) : BoundHost := { x with kept := false }

/-- A job has made a step; a message that it posts is queued. -/
def work (c : Crowd Unit) (m : Mark) (x : BoundHost) : BoundHost :=
  { x with bus := x.bus.postAll m.posted?.toList, host := x.host.note c m }

inductive Step (target : String) (x : BoundHost) : BoundHost → Prop
  | dispatch (frame : String) : Step target x (x.dispatch target frame).2
  | drop : Step target x x.drop
  | work {c : Crowd Unit} {i : Nat} {m : Mark} (hs : Crowd.Step i x.host.crowd c)
    (hm : c.log = x.host.crowd.log ++ [(i, m)]) : Step target x (x.work c m)
  | outbound (frames : Option (List String)) :
    Step target x { x with bus := { x.bus with outbound := frames } }

def Steps (target : String) : BoundHost → BoundHost → Prop := Relation.ReflTransGen (Step target)

def Reachable (target : String) (x : BoundHost) : Prop := Steps target attached x

variable {target : String} {x y : BoundHost}

/-! ## Frames -/

theorem dispatch_cases (target frame : String) (x : BoundHost) :
    (x.dispatch target frame).2 = x ∨ x.IsThere ∧ ∃ m,
      (x.dispatch target frame).2 = { x with host := x.host.handle target m } := by
  unfold dispatch
  split
  · exact .inl rfl
  · dsimp only
    split
    · next h => exact .inr ⟨h.2, _, rfl⟩
    · exact .inl rfl

theorem dispatch_frame {m : Message} (h : x.bus.handler m.kind = some ()) :
    x.dispatch target m.frame =
      (.ok m.kind, if x.IsThere then { x with host := x.host.handle target m } else x) := by
  rw [dispatch, Bus.route_frame h]
  simp

/-- What a step comes to for the host: nothing, a message that is taken, or a step of a job. -/
theorem Step.inv (h : Step target x y) :
    y.bus.handler = x.bus.handler ∧ (x.kept = false → y.kept = false) ∧
      (y.host = x.host ∨ (x.IsThere ∧ ∃ m, y.host = x.host.handle target m) ∨
        ∃ c i m, Crowd.Step i x.host.crowd c ∧ c.log = x.host.crowd.log ++ [(i, m)] ∧
          y.host = x.host.note c m) := by
  cases h with
  | dispatch frame =>
    obtain hsame | ⟨hthere, m, htaken⟩ := dispatch_cases target frame x
    · rw [hsame]
      exact ⟨rfl, id, .inl rfl⟩
    · rw [htaken]
      exact ⟨rfl, id, .inr (.inl ⟨hthere, m, rfl⟩)⟩
  | drop => exact ⟨rfl, fun _ => rfl, .inl rfl⟩
  | outbound => exact ⟨rfl, id, .inl rfl⟩
  | work hs hm => exact ⟨Bus.handler_postAll .., id, .inr (.inr ⟨_, _, _, hs, hm, rfl⟩)⟩

theorem Steps.handler_eq (h : Steps target x y) : y.bus.handler = x.bus.handler := by
  induction h with
  | refl => rfl
  | tail _ hs ih => exact hs.inv.1.trans ih

theorem Reachable.handler_eq (h : Reachable target x) {k : Kind}
    (hk : k = .ping ∨ k = .requestSave) : x.bus.handler k = some () := by
  rw [Steps.handler_eq h]
  obtain rfl | rfl := hk <;> rfl

theorem Reachable.exists_run (h : Reachable target x) : ∃ l, HostCrowd.Run target l x.host := by
  induction h with
  | refl => exact ⟨[], .idle⟩
  | tail _ hs ih =>
    obtain ⟨l, hl⟩ := ih
    obtain ⟨-, -, hsame | ⟨-, m, htaken⟩ | ⟨c, i, m, hstep, hm, hwork⟩⟩ := hs.inv
    · exact ⟨l, hsame ▸ hl⟩
    · exact ⟨_, htaken ▸ hl.take m⟩
    · exact ⟨_, hwork ▸ hl.work hstep hm⟩

/-! ## Once nobody holds on to the host -/

/-- Nobody holds on to the host any more. -/
structure Gone (x : BoundHost) : Prop where
  kept : x.kept = false
  atRest : x.AtRest

theorem Gone.step (H : Gone x) (h : Step target x y) :
    Gone y ∧ y.host.origins = x.host.origins := by
  obtain ⟨-, hkept, hsame | ⟨hkept' | hjob, -⟩ | ⟨c, i, m, hstep, -⟩⟩ := h.inv
  · exact ⟨⟨hkept H.kept, fun s hs => H.atRest s (hsame ▸ hs)⟩, congrArg _ hsame⟩
  · rw [H.kept] at hkept'
    cases hkept'
  · exact absurd H.atRest hjob
  · -- Only a job that has not ended makes a step.
    obtain ⟨m, s, s', hi, hadv, -⟩ := hstep.inv
    have hdone := H.atRest s (List.mem_of_getElem? hi)
    rw [hadv.not_isDone] at hdone
    cases hdone

theorem Gone.steps (H : Gone x) (h : Steps target x y) : y.host.origins = x.host.origins := by
  have hgone : Gone y ∧ y.host.origins = x.host.origins := by
    induction h with
    | refl => exact ⟨H, rfl⟩
    | tail _ hs ih =>
      obtain ⟨H', horigins⟩ := ih
      obtain ⟨H'', horigins'⟩ := H'.step hs
      exact ⟨H'', horigins'.trans horigins⟩
  exact hgone.2

/-! ## The jobs that are left -/

theorem Steps.of_crowd (target : String) {c : Crowd Unit}
    (h : Relation.ReflTransGen (fun c c' => ∃ i, Crowd.Step i c c') x.host.crowd c) :
    ∃ (marks : List (Nat × Mark)), c.log = x.host.crowd.log ++ marks ∧
      Steps target x { x with
        bus := x.bus.postAll (marks.filterMap (·.2.posted?))
        host := { x.host with
          crowd := c, polling := (marks.map (·.2)).foldl Mark.polling x.host.polling } } := by
  induction h with
  | refl => exact ⟨[], (List.append_nil _).symm, .refl⟩
  | tail _ hs ih =>
    obtain ⟨marks, hlog, hsteps⟩ := ih
    obtain ⟨i, hs⟩ := hs
    obtain ⟨m, -, -, -, -, hm, -⟩ := hs.inv
    refine ⟨marks ++ [(i, m)], by rw [hm, hlog, List.append_assoc], ?_⟩
    have hnext : Steps target x _ := hsteps.tail (.work hs hm)
    rw [List.filterMap_append, Bus.postAll, List.foldl_append, List.map_append, List.foldl_append]
    rw [work, Bus.postAll, Bus.postAll] at hnext
    cases hposted : m.posted? <;> simpa [hposted, HostCrowd.note] using hnext

/-- What letting go of a host comes to. -/
structure LetGo (target : String) (x : BoundHost) : Prop where
  /-- No frame starts a job from then on, whatever happens, if and only if no job is under way. -/
  detached : (∀ y, Steps target x.drop y → y.host.origins = x.host.origins) ↔ x.AtRest
  /-- Frames are dispatched as before. -/
  answered : ∀ y, Steps target x.drop y → ∀ m : Message, m.kind = .ping ∨ m.kind = .requestSave →
    (y.dispatch target m.frame).1 = .ok m.kind
  /-- The jobs that are under way may end without another one having been started, each with its
  answer posted, and then no frame starts a job any more. -/
  ends : ∃ y, Steps target x.drop y ∧ y.AtRest ∧ y.host.origins = x.host.origins ∧
    (∀ (i : Nat) o, y.host.origins[i]? = some o →
      ∃ m, Job.posts (y.host.steps i) = [m] ∧ m.kind = o.answerKind) ∧
    ∀ z, Steps target y z → z.host.origins = y.host.origins

theorem Steps.kept_eq (h : Steps target x y) (hx : x.kept = false) : y.kept = false := by
  induction h with
  | refl => exact hx
  | tail _ hs ih => exact hs.inv.2.1 ih

theorem Reachable.letGo (h : Reachable target x) : LetGo target x := by
  have hdrop : Reachable target x.drop := h.tail .drop
  constructor
  case detached =>
    constructor
    · intro hnone
      by_contra hjob
      -- The job that is under way holds on to the host, so the next request starts a save.
      have hthere : x.drop.IsThere := .inr hjob
      have hsave := hnone _ (.single (.dispatch (Message.requestSave "").frame))
      rw [dispatch_frame (hdrop.handler_eq (.inr rfl)), if_pos hthere] at hsave
      exact absurd (congrArg List.length hsave) (by simp [HostCrowd.handle, HostCrowd.start, drop])
    · intro hrest y hy
      have hgone : Gone x.drop := ⟨rfl, hrest⟩
      exact hgone.steps hy
  case answered =>
    intro y hy m hm
    rw [dispatch_frame (Reachable.handler_eq (hdrop.trans hy) hm)]
  case ends =>
    obtain ⟨l, hl⟩ := hdrop.exists_run
    obtain ⟨ledger, hledger⟩ := hl.sound.orderly
    obtain ⟨c, hc, hdone⟩ := hledger.exists_finish
    obtain ⟨marks, -, hy⟩ := Steps.of_crowd target hc
    have hrest (s : Standing Unit) (hs : s ∈ c.jobs) : s.isDone := by
      obtain ⟨u, rfl⟩ := hdone s hs
      rfl
    refine ⟨_, hy, hrest, rfl, fun i o hi => ?_, fun z hz => ?_⟩
    · obtain ⟨l', hl'⟩ := Reachable.exists_run (hdrop.trans hy)
      obtain ⟨s, hs, hleads⟩ := hl'.sound.exists_leads hi
      obtain ⟨-, hm⟩ | ⟨hnot, -⟩ := Origin.posts_of_leads hleads
      · exact hm
      · obtain rfl := Standing.eq_of_isDone (hrest s (List.mem_of_getElem? hs))
        exact absurd rfl hnot
    · exact Gone.steps ⟨hy.kept_eq rfl, hrest⟩ hz

/-- A ping has been taken and its job has made no step: the host that is let go of then is not gone,
while one that has taken nothing is. -/
theorem letGo_after_ping :
    (∀ y, Steps "updates" attached.drop y → y.host.origins = []) ∧
      ∃ y, Steps "updates" (attached.dispatch "updates" Message.ping.frame).2.drop y ∧
        y.host.origins ≠ (attached.dispatch "updates" Message.ping.frame).2.host.origins := by
  have hping : Reachable "updates" (attached.dispatch "updates" Message.ping.frame).2 :=
    .single (.dispatch _)
  refine ⟨(Reachable.letGo .refl).detached.2 nofun, ?_⟩
  have hjob : ¬ (attached.dispatch "updates" Message.ping.frame).2.AtRest := by
    rw [dispatch_frame (x := attached) (m := .ping) rfl, if_pos (.inl rfl)]
    intro hrest
    exact absurd (hrest _ (.head _)) (by decide)
  by_contra hnone
  push Not at hnone
  exact hjob (hping.letGo.detached.1 hnone)

/-! ## Jobs that take turns -/

end BoundHost

namespace Crew

variable {c c' : HostCrew}

theorem record_ended_sublist {i : Nat} {r : Desk.Run Unit} :
    (c.ended.map (·.1)).Sublist ((c.record i r).ended.map (·.1)) := by
  unfold record
  split
  · exact (List.sublist_append_left ..).map _
  · exact .refl _

theorem mem_record_ended_of_fits {i : Nat} {r : Desk.Run Unit} (h : r.halt.Fits true) :
    i ∈ (c.record i r).ended.map (·.1) := by
  unfold record
  split
  · simp
  · next hwaiting =>
    rw [hwaiting] at h
    cases h.1

/-- The tasks of a crew are its jobs that have not ended. -/
structure Complete (c : HostCrew) : Prop where
  line : ∃ l, c.InLine l
  unended : ∀ t ∈ c.tasks, t.rest ≠ .done ()
  accounted : ∀ i < c.started, i ∈ c.tasks.map (·.number) ∨ i ∈ c.ended.map (·.1)

namespace Complete

theorem setDesk (H : Complete c) {d : Desk} (hlock : d.lock = c.desk.lock)
    (hgate : ∀ n ∈ d.atGate, n ∈ c.desk.atGate) : Complete { c with desk := d } where
  line := H.line.imp fun _ hl => hl.setDesk hlock hgate
  unended := H.unended
  accounted := H.accounted

theorem start (H : Complete c) {job : Job Unit} (hjob : job.Keeps .before)
    (hrest : job ≠ .done ()) : Complete (c.start job) where
  line := by
    obtain ⟨l, hl⟩ := H.line
    exact ⟨_, hl.start hjob⟩
  unended t ht := by
    obtain ht | ht := List.mem_append.1 ht
    · exact H.unended t ht
    · obtain rfl := List.mem_singleton.1 ht
      exact hrest
  accounted i hi := by
    have hnumbers : (c.start job).tasks.map (·.number) = c.tasks.map (·.number) ++ [c.started] :=
      List.map_append
    rw [hnumbers, List.mem_append]
    obtain hlt | rfl := Nat.lt_succ_iff_lt_or_eq.1 hi
    · exact (H.accounted i hlt).imp_left .inl
    · exact .inl (.inr (.head _))

theorem turn (H : Complete c) (h : c.turn? = some c') : Complete c' := by
  obtain ⟨l, hl⟩ := H.line
  obtain ⟨i, ready, hready, ⟨hi, -, rfl⟩ | ⟨t, ht, rfl, -, rfl⟩⟩ := turn?_cases h
  · exact ⟨⟨l, hl.drop hready hi⟩, H.unended, H.accounted⟩
  · obtain ⟨ended, l', hmoved⟩ := hl.moved ht hready
    refine ⟨⟨l', hl.record hready hmoved⟩, fun u hu => ?_, fun i hi => ?_⟩
    · obtain ⟨hu, -⟩ | ⟨-, hhalt⟩ := mem_record_tasks hu
      · exact H.unended u hu
      · -- A job that has to wait has not let go of the tree.
        have hinside := hmoved.halt
        rw [hhalt] at hinside
        intro hdone
        rw [hdone] at hinside
        exact absurd rfl hinside.2.of_done
    · dsimp only at hi ⊢
      rw [record_started] at hi
      rw [record_numbers hmoved.halt]
      have hfits := hmoved.halt
      cases ended with
      | false =>
        rw [if_neg Bool.false_ne_true]
        exact (H.accounted i hi).imp_right fun hmem => record_ended_sublist.subset hmem
      | true =>
        rw [if_pos rfl]
        by_cases hit : i = t.number
        · subst hit
          exact .inr (mem_record_ended_of_fits hfits)
        · refine (H.accounted i hi).imp (fun hmem => ?_) fun hmem => ?_
          · exact List.mem_filter.2 ⟨hmem, by simpa using hit⟩
          · exact record_ended_sublist.subset hmem

end Complete
end Crew

namespace BoundHost

variable {target : String} {x y : BoundHost} {c c' : HostCrew}

/-- A host whose jobs take turns stands as one whose jobs go on side by side. -/
structure Holds (target : String) (c : HostCrew) (x : BoundHost) : Prop where
  hosts : HostCrowd.Hosts target c x.host
  bus : c.desk.host.bus = x.bus
  kept : c.desk.host.kept = x.kept
  complete : c.Complete

theorem Holds.isEmpty_iff (H : Holds target c x) : c.tasks.isEmpty ↔ x.AtRest := by
  rw [List.isEmpty_iff]
  constructor
  · intro hnone s hs
    obtain ⟨i, hi⟩ := List.mem_iff_getElem?.1 hs
    have hlt : i < c.started := H.hosts.crew.started ▸ (List.getElem?_eq_some_iff.1 hi).1
    obtain htask | hended := H.complete.accounted i hlt
    · rw [hnone] at htask
      cases htask
    · obtain ⟨e, he, rfl⟩ := List.mem_map.1 hended
      obtain rfl := Option.some.inj ((H.hosts.crew.ended e he).symm.trans hi)
      rfl
  · intro hrest
    refine List.eq_nil_iff_forall_not_mem.2 fun t ht => ?_
    obtain hs | hs := H.hosts.crew.tasks t ht
    · have hdone := Standing.eq_of_isDone (hrest _ (List.mem_of_getElem? hs))
      exact absurd (Standing.ready.inj hdone) (H.complete.unended t ht)
    · cases Standing.eq_of_isDone (hrest _ (List.mem_of_getElem? hs))

theorem Holds.isAlive_iff (H : Holds target c x) : c.isAlive ↔ x.IsThere := by
  rw [HostCrew.isAlive, IsThere, ← H.isEmpty_iff, H.kept]
  simp

/-- A host to which nothing has come yet. -/
theorem holds_attached {d : Desk} (htarget : d.target = target) (hlock : d.lock = {})
    (hgate : d.gates = []) (hhost : d.host = {}) :
    Holds target (HostCrew.attach { desk := d }) attached where
  hosts := by
    refine ⟨htarget, ⟨hlock.symm, rfl, nofun, nofun, ?_, ?_⟩, congrArg Host.polling hhost⟩
    · simp [HostCrew.attach, HostCrew.setHost, Desk.atGate, hgate]
    · simp [HostCrew.attach, HostCrew.setHost, Desk.atGate, hgate]
  bus := by
    rw [HostCrew.attach, hhost]
    rfl
  kept := congrArg Host.kept hhost
  complete := ⟨⟨{}, .empty hlock hgate⟩, nofun, nofun⟩

theorem Holds.handle (H : Holds target c x) (m : Message) :
    Holds target (c.handle m) { x with host := x.host.handle target m } := by
  refine ⟨H.hosts.handle m, ?_, ?_, ?_⟩
  · rw [← H.bus]
    cases m with
    | ping => rw [HostCrew.handle]; split <;> rfl
    | requestSave | pong | saveResult => rfl
  · rw [← H.kept]
    cases m with
    | ping => rw [HostCrew.handle]; split <;> rfl
    | requestSave | pong | saveResult => rfl
  · cases m with
    | ping =>
      rw [HostCrew.handle]
      split
      · exact H.complete
      · have hset : Crew.Complete (HostCrew.setHost { c.desk.host with polling := true } c) :=
          H.complete.setDesk rfl fun _ => id
        exact hset.start (HostCrew.keeps_jobFor _ none) (HostCrew.jobFor_ne_done _ none)
    | requestSave message =>
      exact H.complete.start (HostCrew.keeps_jobFor _ (some message))
        (HostCrew.jobFor_ne_done _ (some message))
    | pong | saveResult => exact H.complete

theorem Holds.dispatch (H : Holds target c x) (frame : String) :
    (c.dispatch frame).1 = (x.dispatch target frame).1 ∧
      Holds target (c.dispatch frame).2 (x.dispatch target frame).2 := by
  rw [HostCrew.dispatch, BoundHost.dispatch, H.bus]
  cases hroute : x.bus.route frame with
  | error e => exact ⟨rfl, H⟩
  | ok r =>
    obtain ⟨k, _, m⟩ := r
    dsimp only
    refine ⟨rfl, ?_⟩
    simp only [H.isAlive_iff]
    split
    · exact H.handle m
    · exact H

/-- The host changes, but for whether a poll is under way. -/
theorem Holds.setHost (H : Holds target c x) {h : Host} (hpolling : h.polling = x.host.polling) :
    Holds target (HostCrew.setHost h c) { x with bus := h.bus, kept := h.kept } where
  hosts := ⟨H.hosts.target_eq, H.hosts.crew.setDesk rfl rfl, hpolling⟩
  bus := rfl
  kept := rfl
  complete := H.complete.setDesk rfl fun _ => id

theorem Holds.drop (H : Holds target c x) : Holds target c.drop x.drop := by
  have hdrop := H.setHost (h := { c.desk.host with kept := false }) H.hosts.polling
  rw [H.bus] at hdrop
  exact hdrop

theorem Holds.turn (H : Holds target c x) (hx : Reachable target x) (h : c.turn? = some c') :
    ∃ y, Steps target x y ∧ Holds target c' y := by
  obtain ⟨l, hl⟩ := hx.exists_run
  obtain ⟨ledger, hledger⟩ := hl.sound.orderly
  obtain ⟨crowd, marks, hsteps, hlog, hcrew, htarget, hbus, hkept, hpolling, -⟩ :=
    H.hosts.crew.turn hledger h
  obtain ⟨marks', hlog', hrun⟩ := Steps.of_crowd target hsteps
  obtain rfl : marks' = marks := List.append_cancel_left (hlog'.symm.trans hlog)
  refine ⟨_, hrun, ⟨htarget.trans H.hosts.target_eq, hcrew, ?_⟩, ?_, ?_, H.complete.turn h⟩
  · rw [hpolling, H.hosts.polling]
  · rw [hbus, H.bus]
  · rw [hkept, H.kept]

end BoundHost
end PublishDesk
