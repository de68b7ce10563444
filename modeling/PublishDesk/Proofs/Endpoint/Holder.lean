import PublishDesk.Proofs.Endpoint.Attachments
import PublishDesk.Proofs.Endpoint.Stream
import PublishDesk.Proofs.Host.Requests

/-!
# One view at a time

Views attach to an endpoint and leave it, frames are posted and delivered, and the endpoint may be
shut down, in any order (`Endpoint.Move`). Whatever happens follows a path of stages
(`Endpoint.Attended.move`), so `Endpoint.run_exclusive` can say of every run which frames a view
receives: the first of those that are posted while it is attached, and nothing else.
-/

namespace PublishDesk

open Job

/-! ## What the host posts by itself -/

namespace Desk

variable {α : Type} {d d' : Desk} {i : Nat} {passed : Bool} {s : HostStep} {woken : Option Nat}

theorem step_bus {progress : Progress s.Answer} (h : d.step i passed s = (progress, d', woken)) :
    d'.host.bus = d.host.bus.postAll (posts (progress.answer?.toList.map fun a => ⟨s, a⟩)) := by
  obtain ⟨_ | _ | c | _⟩ | _ | _ | _ | _ | m := s
  case tree.acquire =>
    rcases hl : d.lock.acquire i with ⟨_ | _, lock⟩ <;>
    · rw [step, hl] at h
      cases h
      rfl
  case tree.repository =>
    obtain ⟨gates, ⟨hstep, -⟩ | ⟨hstep, -⟩⟩ := step_call i passed c d <;>
    · cases hstep.symm.trans h
      rfl
  all_goals
    cases h
    rfl

/-- What a run of a job posts. -/
theorem work_bus (p : Job α) :
    (d.work i passed p).desk.host.bus = d.host.bus.postAll (posts (d.steps i passed p)) := by
  induction p generalizing d passed with
  | done a => rfl
  | ask s next ih =>
    rw [steps, work]
    rcases hs : d.step i passed s with ⟨a | a | _, d', woken⟩
    · dsimp only
      rw [← List.singleton_append, posts_append, Bus.postAll, List.foldl_append]
      exact (ih a).trans (congrArg (Bus.postAll · _) (step_bus hs))
    · exact step_bus hs
    · exact step_bus hs

end Desk

namespace Crew

variable {α : Type} {c c' : Crew α}

theorem turn?_bus (h : c.turn? = some c') :
    c'.desk.host.bus = c.desk.host.bus.postAll (posts (c.turnSteps.map (·.2))) := by
  obtain ⟨i, ready, -, ⟨-, hsteps, rfl⟩ | ⟨t, -, -, hsteps, rfl⟩⟩ := turn?_cases h
  · rw [hsteps]
    rfl
  · rw [hsteps, List.map_map, show (·.2) ∘ (i, ·) = id from rfl, List.map_id]
    exact (congrArg (·.host.bus) (record_desk ..)).trans (Desk.work_bus _)

theorem turns_bus (fuel : Nat) (c : Crew α) : (c.turns fuel).desk.host.bus =
    c.desk.host.bus.postAll (posts ((c.turnsSteps fuel).map (·.2))) := by
  induction fuel generalizing c with
  | zero => rfl
  | succ fuel ih =>
    rw [turns, turnsSteps]
    cases hturn : c.turn? with
    | none => rfl
    | some c' =>
      dsimp only
      rw [List.map_append, posts_append, Bus.postAll, List.foldl_append, ih c', turn?_bus hturn]
      rfl

end Crew

namespace HostCrew

theorem bus_handle (m : Message) (c : HostCrew) :
    (c.handle m).desk.host.bus = c.desk.host.bus := by
  cases m with
  | ping =>
    rw [handle]
    split <;> rfl
  | requestSave | pong | saveResult => rfl

theorem bus_dispatch (frame : String) (c : HostCrew) :
    (c.dispatch frame).2.desk.host.bus = c.desk.host.bus := by
  rw [dispatch]
  split
  · rfl
  · dsimp only
    split
    · exact bus_handle ..
    · rfl

end HostCrew

/-! ## What happens to an endpoint -/

namespace Endpoint

/-- What may happen to an endpoint. -/
inductive Move where
  | attach (view : String)
  /-- One frame is delivered to the view that is attached. -/
  | deliver
  /-- A view reads what there is for it. -/
  | read (view : String)
  | leave (view : String)
  | post (message : Message)
  | request (request : Request)
  | shutdown
  | startWorker
  | stopWorker
  | wait (milliseconds : Nat)
  /-- The jobs of the host and the monitor of its worker go on. -/
  | settle
  | holdPushes
  | releasePush (gate : Nat)
  | update (f : MemoryRepository → MemoryRepository)

/-- Whether a view is attached. -/
def isAttached (view : String) (e : Endpoint) : Bool :=
  (e.streams.lookup view).any fun s => !s.ended

def postings (ms : List Message) : List StreamEvent := (ms.map Message.frame).map .posted

/-- What a request does to the views and to the frames. A stream that is asked for in a request that
is given up is left at once. -/
def requestEvents (r : Request) (e : Endpoint) : List StreamEvent :=
  match r.route with
  | .error _ | .ok .health | .ok .messages => []
  | .ok .status =>
    postings (posts (e.host.desk.steps e.host.started false (Job.report e.host.desk.target)))
  | .ok .events => if e.isHeld then [.refused] else [.attached, .detached]

/-- What a move does to the views and to the frames, and the endpoint after it. -/
def move : Move → Endpoint → List StreamEvent × Endpoint
  | .attach view, e =>
    ([if (e.attach view).1.code = .conflict then .refused else .attached], (e.attach view).2)
  | .deliver, e =>
    if e.isHeld then (e.deliver?.1.toList.map .delivered, e.deliver?.2) else ([], e)
  | .read view, e =>
    (if e.isAttached view then
        if e.shutDown then [.detached] else (e.deliverUpTo e.queue.length).1.map .delivered
      else [], (e.read view).2)
  | .leave view, e => (if e.isAttached view then [.detached] else [], e.leave view)
  | .post m, e => ([.posted m.frame], e.post m)
  | .request r, e => (e.requestEvents r, (e.respond r).2)
  | .shutdown, e => ([.shutDown], e.shutdown.2)
  | .startWorker, e => ([], e.startWorker)
  | .stopWorker, e =>
    (if e.host.desk.worker.isSome then [.shutDown] else [], e.stopWorker)
  | .wait ms, e => ([], { e with now := e.now + ms })
  | .settle, e => (postings (posts (e.settleWorker.host.settleSteps.map (·.2))), e.settle)
  | .holdPushes, e => ([], { e with host := e.host.holdPushes })
  | .releasePush gate, e => ([], { e with host := e.host.releasePush gate })
  | .update f, e => ([], { e with host := e.host.update f })

def run : List Move → Endpoint → List StreamEvent × Endpoint
  | [], e => ([], e)
  | m :: ms, e => ((e.move m).1 ++ (run ms (e.move m).2).1, (run ms (e.move m).2).2)

def stage (e : Endpoint) : Stage := ⟨e.isHeld, e.queue, e.shutDown⟩

/-- How many views are attached. -/
def attendance (e : Endpoint) : Nat := e.streams.countP fun s => !s.2.ended

structure Attended (e : Endpoint) : Prop where
  names : (e.streams.map (·.1)).Nodup
  single : e.attendance ≤ 1
  queued : e.host.desk.host.bus.outbound.isSome

variable {e e' : Endpoint} {view : String} {s : ViewStream}

/-! ## The streams -/

theorem isHeld_iff : e.isHeld ↔ 0 < e.attendance := by
  rw [isHeld, attendance, List.countP_pos_iff, List.any_eq_true]

theorem isHeld_false_iff : e.isHeld = false ↔ e.attendance = 0 := by
  rw [← Bool.not_eq_true, isHeld_iff, Nat.pos_iff_ne_zero, not_not]

theorem mem_of_lookup (h : e.streams.lookup view = some s) : (view, s) ∈ e.streams := by
  obtain ⟨l, l', hl, -⟩ := List.lookup_eq_some_iff.1 h
  rw [hl]
  exact List.mem_append_right _ (.head _)

theorem Attended.lookup_of_mem (H : Attended e) (h : (view, s) ∈ e.streams) :
    e.streams.lookup view = some s := by
  have hnames := H.names
  obtain ⟨l, l', hl⟩ := List.append_of_mem h
  refine List.lookup_eq_some_iff.2 ⟨l, l', hl, fun p hp => ?_⟩
  rw [hl, List.map_append, List.map_cons] at hnames
  have hne := (List.nodup_append.1 hnames).2.2 _ (List.mem_map_of_mem hp) _ (.head _)
  exact bne_iff_ne.2 (Ne.symm hne)

theorem attendance_split (view : String) (e : Endpoint) : e.attendance =
    (e.removeStream view).attendance +
      (e.streams.filter fun s => !(s.1 != view)).countP fun s => !s.2.ended :=
  List.countP_eq_countP_filter_add ..

/-- Once the view that is attached has gone, no view is attached. -/
theorem Attended.attendance_remove (H : Attended e) (h : e.isAttached view) :
    (e.removeStream view).attendance = 0 := by
  obtain ⟨s, hs, hopen⟩ := (Option.any_eq_true ..).1 h
  have hmem : (view, s) ∈ e.streams.filter fun s => !(s.1 != view) :=
    List.mem_filter.2 ⟨mem_of_lookup hs, by simp⟩
  have hpos : 0 < (e.streams.filter fun s => !(s.1 != view)).countP fun s => !s.2.ended :=
    List.countP_pos_iff.2 ⟨_, hmem, hopen⟩
  have hsplit := e.attendance_split view
  have hsingle := H.single
  omega

theorem Attended.attendance_remove_of_not (H : Attended e) (h : ¬ e.isAttached view) :
    (e.removeStream view).attendance = e.attendance := by
  have hnone : ((e.streams.filter fun s => !(s.1 != view)).countP fun s => !s.2.ended) = 0 := by
    refine List.countP_eq_zero.2 fun p hp hopen => h ?_
    obtain ⟨hmem, hview⟩ := List.mem_filter.1 hp
    obtain rfl : p.1 = view := by simpa using hview
    rw [isAttached, H.lookup_of_mem (s := p.2) hmem]
    exact hopen
  rw [e.attendance_split view, hnone, Nat.add_zero]

theorem isHeld_of_isAttached (h : e.isAttached view) : e.isHeld := by
  obtain ⟨s, hs, hopen⟩ := (Option.any_eq_true ..).1 h
  exact List.any_eq_true.2 ⟨_, mem_of_lookup hs, hopen⟩

theorem attendance_setStream (view : String) (s : ViewStream) (e : Endpoint) :
    (e.setStream view s).attendance = (e.removeStream view).attendance + (!s.ended).toNat := by
  rw [attendance, setStream, List.countP_cons]
  cases s.ended <;> rfl

theorem Attended.names_remove (H : Attended e) (view : String) :
    ((e.removeStream view).streams.map (·.1)).Nodup :=
  H.names.sublist (List.filter_sublist.map _)

theorem Attended.names_set (H : Attended e) (view : String) (s : ViewStream) :
    ((e.setStream view s).streams.map (·.1)).Nodup := by
  refine List.nodup_cons.2 ⟨fun hmem => ?_, H.names_remove view⟩
  obtain ⟨p, hp, hview⟩ := List.mem_map.1 hmem
  simpa [hview] using (List.mem_filter.1 hp).2

/-! ## Each move follows a path -/

/-- Nothing has happened to the views, and some frames have been posted. -/
structure Posts (ms : List Message) (e e' : Endpoint) : Prop where
  streams : e'.streams = e.streams
  shutDown : e'.shutDown = e.shutDown
  bus : e'.host.desk.host.bus = e.host.desk.host.bus.postAll ms

theorem Posts.attendance_eq {ms : List Message} (h : Posts ms e e') :
    e'.attendance = e.attendance := by rw [attendance, h.streams, attendance]

theorem Posts.path {ms : List Message} (h : Posts ms e e') (H : Attended e) :
    e.stage.Path (postings ms) e'.stage ∧ Attended e' := by
  obtain ⟨frames, hframes⟩ := Option.isSome_iff_exists.1 H.queued
  have hqueue := Bus.outbound_postAll hframes ms
  rw [← h.bus] at hqueue
  have hstage : e'.stage = { e.stage with queue := e.stage.queue ++ ms.map Message.frame } := by
    simp [stage, isHeld, queue, h.streams, h.shutDown, hqueue, hframes]
  refine ⟨hstage ▸ .posted e.stage _, ?_, ?_, ?_⟩
  · rw [h.streams]
    exact H.names
  · rw [h.attendance_eq]
    exact H.single
  · rw [hqueue]
    rfl

/-- Frames are taken off the queue, as far as there are some and the endpoint is up. -/
theorem Attended.deliver (H : Attended e) (hheld : e.isHeld) :
    e.stage.Path (e.deliver?.1.toList.map .delivered) e.deliver?.2.stage ∧
      e.deliver?.2.streams = e.streams ∧ Attended e.deliver?.2 := by
  unfold deliver?
  split
  · exact ⟨.nil, rfl, H⟩
  · next hup =>
    obtain ⟨frames, hframes⟩ := Option.isSome_iff_exists.1 H.queued
    rw [Bus.receive, hframes]
    cases frames with
    | nil => exact ⟨.nil, rfl, H⟩
    | cons f frames =>
      have hqueue : e.stage.queue = f :: frames := by rw [stage, queue, hframes]; rfl
      refine ⟨.single (.delivered hheld (eq_false_of_ne_true hup) hqueue), rfl, H.names, H.single,
        ?_⟩
      rfl

theorem Attended.deliverUpTo (H : Attended e) (hheld : e.isHeld) (n : Nat) :
    e.stage.Path ((e.deliverUpTo n).1.map .delivered) (e.deliverUpTo n).2.stage ∧
      (e.deliverUpTo n).2.streams = e.streams ∧ Attended (e.deliverUpTo n).2 := by
  induction n generalizing e with
  | zero => exact ⟨.nil, rfl, H⟩
  | succ n ih =>
    obtain ⟨hpath, hstreams, H'⟩ := H.deliver hheld
    rw [Endpoint.deliverUpTo]
    rcases hdeliver : e.deliver? with ⟨_ | f, e'⟩
    · rw [hdeliver] at hpath hstreams H'
      exact ⟨hpath, hstreams, H'⟩
    · rw [hdeliver] at hpath hstreams H'
      have hheld' : e'.isHeld := by rwa [isHeld, hstreams]
      obtain ⟨hrest, hstreams', H''⟩ := ih H' hheld'
      exact ⟨hpath.trans hrest, hstreams'.trans hstreams, H''⟩

theorem Attended.remove (H : Attended e) (view : String) : Attended (e.removeStream view) where
  names := H.names_remove view
  single := by
    have hsplit := e.attendance_split view
    have hsingle := H.single
    omega
  queued := H.queued

/-- A view's stream yields something, or nothing. -/
theorem Attended.setActive (H : Attended e) (h : e.isAttached view) (now : Nat) :
    (e.setStream view { active := now }).stage = e.stage ∧
      Attended (e.setStream view { active := now }) := by
  have hcount : (e.setStream view { active := now }).attendance = 1 := by
    rw [attendance_setStream, H.attendance_remove h]
    rfl
  have hheld : (e.setStream view { active := now }).isHeld = e.isHeld := by
    rw [isHeld_of_isAttached h, isHeld_iff, hcount]
    exact Nat.one_pos
  refine ⟨?_, H.names_set view _, Nat.le_of_eq hcount, H.queued⟩
  rw [stage, hheld]
  rfl

/-- A view's stream ends, and then no view holds the endpoint. -/
theorem Attended.setEnded (H : Attended e) (h : e.isAttached view) (s : ViewStream) :
    e.stage.Path [.detached] (e.setStream view { s with ended := true }).stage ∧
      Attended (e.setStream view { s with ended := true }) := by
  have hcount : (e.setStream view { s with ended := true }).attendance = 0 := by
    rw [attendance_setStream, H.attendance_remove h]
    rfl
  have hstage : (e.setStream view { s with ended := true }).stage =
      { e.stage with held := false } := by
    rw [stage, isHeld_false_iff.2 hcount]
    rfl
  refine ⟨?_, H.names_set view _, ?_, H.queued⟩
  · exact hstage ▸ .single (.detached (isHeld_of_isAttached h))
  · rw [hcount]
    exact Nat.zero_le 1

theorem Attended.leave (H : Attended e) (view : String) :
    e.stage.Path (if e.isAttached view then [.detached] else []) (e.leave view).stage ∧
      Attended (e.leave view) := by
  refine ⟨?_, H.remove view⟩
  split
  · next h =>
    have hfree : (e.leave view).isHeld = false := isHeld_false_iff.2 (H.attendance_remove h)
    have hstage : (e.leave view).stage = { e.stage with held := false } := by
      rw [stage, hfree]
      rfl
    exact hstage ▸ .single (.detached (isHeld_of_isAttached h))
  · next h =>
    have hheld : (e.leave view).isHeld = e.isHeld := by
      rw [Bool.eq_iff_iff, isHeld_iff, isHeld_iff, Endpoint.leave, H.attendance_remove_of_not h]
    have hstage : (e.leave view).stage = e.stage := by
      rw [stage, hheld]
      rfl
    exact hstage ▸ .nil

theorem Attended.attach (H : Attended e) (view : String) :
    e.stage.Path [if (e.attach view).1.code = .conflict then .refused else .attached]
      (e.attach view).2.stage ∧ Attended (e.attach view).2 := by
  rw [Endpoint.attach]
  cases hheld : e.isHeld with
  | true => exact ⟨.single (.refused hheld), H⟩
  | false =>
    rw [if_neg Bool.false_ne_true]
    have hnone : (e.removeStream view).attendance = 0 := by
      have hsplit := e.attendance_split view
      have hfree := isHeld_false_iff.1 hheld
      omega
    have hcount : (e.dropFrames.setStream view { active := e.now }).attendance = 1 := by
      rw [attendance_setStream]
      exact congrArg (· + 1) hnone
    obtain ⟨frames, hframes⟩ := Option.isSome_iff_exists.1 H.queued
    have hstage : (e.dropFrames.setStream view { active := e.now }).stage =
        { e.stage with held := true, queue := [] } := by
      have hopened : (e.dropFrames.setStream view { active := e.now }).isHeld := by
        rw [isHeld_iff, hcount]
        exact Nat.one_pos
      rw [stage, hopened, queue]
      simp only [dropFrames, setStream, HostCrew.drain, HostCrew.setHost, Bus.drain, hframes]
      rfl
    refine ⟨?_, H.names_set view _, Nat.le_of_eq hcount, ?_⟩
    · rw [hstage]
      exact .single (.attached hheld)
    · exact (Option.isSome_map ..).trans H.queued

theorem Attended.read (H : Attended e) (view : String) :
    e.stage.Path (e.move (.read view)).1 (e.read view).2.stage ∧ Attended (e.read view).2 := by
  rw [Endpoint.move, Endpoint.read]
  cases hlookup : e.streams.lookup view with
  | none =>
    rw [isAttached, hlookup]
    exact ⟨.nil, H⟩
  | some s =>
    dsimp only
    cases hended : s.ended with
    | true =>
      have hnot : e.isAttached view = false := by rw [isAttached, hlookup]; simp [hended]
      rw [hnot]
      exact ⟨.nil, H⟩
    | false =>
      have hattached : e.isAttached view := by rw [isAttached, hlookup]; simp [hended]
      rw [if_pos hattached, if_neg Bool.false_ne_true]
      split
      · exact H.setEnded hattached s
      · obtain ⟨hpath, hstreams, H'⟩ :=
          H.deliverUpTo (isHeld_of_isAttached hattached) e.queue.length
        have hattached' : (e.deliverUpTo e.queue.length).2.isAttached view := by
          rwa [isAttached, hstreams]
        obtain ⟨hstage, H''⟩ := H'.setActive hattached' (e.deliverUpTo e.queue.length).2.now
        rw [← queue]
        split
        · split
          · exact ⟨hstage ▸ hpath, H''⟩
          · exact ⟨hpath, H'⟩
        · exact ⟨hstage ▸ hpath, H''⟩

/-- A view that is attached reads the events of the frames that are delivered to it, or, if there
are none, at most a comment. -/
theorem read_of_isAttached (h : e.isAttached view) (hup : e.shutDown = false) :
    ∃ text frames, (e.read view).1 = some (text, false) ∧
      (e.move (.read view)).1 = frames.map .delivered ∧
      (text = frames.flatMap (fun f => (EventStream.ofFrame f).render) ∨
        frames = [] ∧ text = EventStream.keepAlive) := by
  obtain ⟨s, hlookup, hopen⟩ := (Option.any_eq_true ..).1 h
  have hended : s.ended = false := by simpa using hopen
  rw [Endpoint.move, if_pos h, hup, if_neg Bool.false_ne_true, Endpoint.read, hlookup]
  simp only [hended, hup, Bool.false_eq_true, if_false]
  rw [← queue]
  split
  · next hnone =>
    have hframes := List.isEmpty_iff.1 hnone
    split
    · exact ⟨_, _, rfl, rfl, .inr ⟨hframes, rfl⟩⟩
    · exact ⟨_, _, rfl, rfl, .inl (by rw [hframes]; rfl)⟩
  · exact ⟨_, _, rfl, rfl, .inl rfl⟩

theorem Attended.unchanged (H : Attended e) (hstreams : e'.streams = e.streams)
    (hdown : e'.shutDown = e.shutDown) (hbus : e'.host.desk.host.bus = e.host.desk.host.bus) :
    e.stage.Path [] e'.stage ∧ Attended e' := by
  have hposts : Posts [] e e' := ⟨hstreams, hdown, hbus⟩
  exact hposts.path H

theorem Attended.tryStream (H : Attended e) (withBody : Bool) :
    e.stage.Path (if e.isHeld then [.refused] else [.attached, .detached])
      (e.tryStream withBody).2.stage ∧ Attended (e.tryStream withBody).2 := by
  rw [Endpoint.tryStream]
  cases hheld : e.isHeld with
  | true => exact ⟨.single (.refused hheld), H⟩
  | false =>
    rw [if_neg Bool.false_ne_true, if_neg Bool.false_ne_true]
    have hfree : e.dropFrames.isHeld = false := hheld
    obtain ⟨frames, hframes⟩ := Option.isSome_iff_exists.1 H.queued
    have hstage : e.dropFrames.stage = { e.stage with held := false, queue := [] } := by
      rw [stage, hfree, queue]
      simp only [dropFrames, HostCrew.drain, HostCrew.setHost, Bus.drain, hframes]
      rfl
    refine ⟨?_, H.names, H.single, (Option.isSome_map ..).trans H.queued⟩
    have hattached : e.stage.Path [.attached] { e.stage with held := true, queue := [] } :=
      .single (.attached hheld)
    exact hstage ▸ hattached.snoc (.detached rfl)

theorem respond_snd (r : Request) (e : Endpoint) : (e.respond r).2 = match r.route with
    | .error _ | .ok .health => e
    | .ok .messages => (e.takeMessage r.body).2
    | .ok .status => e.reportStatus.2
    | .ok .events => (e.tryStream (r.method != "HEAD")).2 := by
  rw [respond]
  rcases r.route with _ | _ | _ | _ | _ <;> rfl

theorem Attended.respond (H : Attended e) (r : Request) :
    e.stage.Path (e.requestEvents r) (e.respond r).2.stage ∧ Attended (e.respond r).2 := by
  rw [respond_snd, requestEvents]
  rcases r.route with _ | _ | _ | _ | _
  case error | ok.health => exact ⟨.nil, H⟩
  case ok.messages =>
    dsimp only
    rw [takeMessage]
    split
    · exact ⟨.nil, H⟩
    · exact H.unchanged rfl rfl (HostCrew.bus_dispatch ..)
  case ok.status =>
    refine Posts.path ⟨rfl, rfl, ?_⟩ H
    rw [reportStatus, ← Desk.work_bus, Crew.ask]
    dsimp only
    split <;> rfl
  case ok.events => exact H.tryStream _

theorem Attended.shutdown (H : Attended e) :
    e.stage.Path [.shutDown] e.shutdown.2.stage ∧ Attended e.shutdown.2 :=
  ⟨.single .shutDown, H.names, H.single, H.queued⟩

theorem Attended.stopWorker (H : Attended e) :
    e.stage.Path (if e.host.desk.worker.isSome then [.shutDown] else []) e.stopWorker.stage ∧
      Attended e.stopWorker := by
  rw [Endpoint.stopWorker]
  split
  · exact ⟨.single .shutDown, H.names, H.single, H.queued⟩
  · exact ⟨.nil, H⟩

theorem Attended.move (H : Attended e) (m : Move) :
    e.stage.Path (e.move m).1 (e.move m).2.stage ∧ Attended (e.move m).2 := by
  cases m with
  | attach view => exact H.attach view
  | deliver =>
    rw [Endpoint.move]
    split
    · next hheld =>
      obtain ⟨hpath, -, H'⟩ := H.deliver hheld
      exact ⟨hpath, H'⟩
    · exact ⟨.nil, H⟩
  | read view => exact H.read view
  | leave view => exact H.leave view
  | post m =>
    have hposts : Posts [m] e (e.post m) := ⟨rfl, rfl, rfl⟩
    exact hposts.path H
  | request r => exact H.respond r
  | shutdown => exact H.shutdown
  | stopWorker => exact H.stopWorker
  | settle =>
    refine Posts.path ⟨rfl, rfl, ?_⟩ H
    exact Crew.turns_bus _ e.settleWorker.host
  | releasePush gate =>
    obtain ⟨gates, hdesk⟩ := e.host.releasePush_desk gate
    exact H.unchanged rfl rfl (by rw [Endpoint.move, hdesk])
  | startWorker | wait | holdPushes | update => exact H.unchanged rfl rfl rfl

theorem Attended.run (H : Attended e) (moves : List Move) :
    e.stage.Path (e.run moves).1 (e.run moves).2.stage ∧ Attended (e.run moves).2 := by
  induction moves generalizing e with
  | nil => exact ⟨.nil, H⟩
  | cons m ms ih =>
    obtain ⟨hpath, H'⟩ := H.move m
    obtain ⟨hrest, H''⟩ := ih H'
    exact ⟨hpath.trans hrest, H''⟩

/-! ## Whole runs -/

/-- The endpoint with other frames in its queue. -/
def requeue (frames : List String) (e : Endpoint) : Endpoint :=
  let h := e.host.desk.host
  { e with
    host := HostCrew.setHost { h with bus := { h.bus with outbound := some frames } } e.host }

/-- What a view is told depends on what happens while it is attached, and on nothing else. `l` is
the log of a run, and `e` what the endpoint has come to. -/
structure Exclusive (l : List StreamEvent) (e : Endpoint) : Prop where
  /-- At most one view is attached. -/
  single : (e.streams.filter fun s => !s.2.ended).length ≤ 1
  attached : (Account.ofLog l).current.isSome = e.isHeld
  /-- A view that asks for the stream is turned away if and only if another one is attached. -/
  answered : ∀ view, (e.attach view).1.code = if e.isHeld then .conflict else .ok
  granted : ∀ before after, l = before ++ .attached :: after → (Account.ofLog before).current = none
  refused : ∀ before after, l = before ++ .refused :: after →
    (Account.ofLog before).current.isSome
  /-- Whatever is delivered is received by the view that is attached then. -/
  delivered : l.filterMap StreamEvent.delivered? =
    (Account.ofLog l).attachments.flatMap Attachment.received
  /-- A view receives the first of the frames that are posted while it is attached. -/
  received : ∀ t ∈ (Account.ofLog l).attachments, t.received <+: t.posted
  posted : ∀ t ∈ (Account.ofLog l).attachments, t.posted <+: (Account.ofLog l).posted.drop t.first
  /-- No frame is received twice, by whatever views. -/
  once : (Account.ofLog l).deliveries.Pairwise (· < ·)
  /-- After a shutdown nothing is delivered. -/
  silent : ∀ before after, l = before ++ .shutDown :: after →
    after.filterMap StreamEvent.delivered? = []
  yields : ∀ view, e.isAttached view → e.shutDown = false → ∃ text frames,
    (e.read view).1 = some (text, false) ∧ (e.move (.read view)).1 = frames.map .delivered ∧
      (text = frames.flatMap (fun f => (EventStream.ofFrame f).render) ∨
        frames = [] ∧ text = EventStream.keepAlive)
  /-- What happens to a view does not depend on what has been queued before it attached. -/
  fresh : e.isHeld = false → ∀ view moves frames,
    (e.requeue frames).run (.attach view :: moves) = e.run (.attach view :: moves)

theorem Attended.attach_requeue (H : Attended e) (hfree : e.isHeld = false) (view : String)
    (frames : List String) : (e.requeue frames).attach view = e.attach view := by
  obtain ⟨queued, hqueued⟩ := Option.isSome_iff_exists.1 H.queued
  have hfree' : (e.requeue frames).isHeld = false := hfree
  rw [Endpoint.attach, Endpoint.attach, hfree, hfree']
  simp only [requeue, dropFrames, HostCrew.drain, HostCrew.setHost, Bus.drain, hqueued]
  rfl

/-- Every run of an endpoint, from its beginning. -/
theorem run_exclusive (hstreams : e.streams = []) (hqueue : e.host.desk.host.bus.outbound.isSome)
    (moves : List Move) : Exclusive (e.run moves).1 (e.run moves).2 := by
  have hnone : e.attendance = 0 := by rw [attendance, hstreams]; rfl
  have hbegin : Attended e := ⟨by rw [hstreams]; exact .nil, by omega, hqueue⟩
  have hfree : e.stage.held = false := isHeld_false_iff.2 hnone
  obtain ⟨hpath, H⟩ := hbegin.run moves
  have hsound := hpath.sound hfree
  constructor
  case single => exact List.countP_eq_length_filter ▸ H.single
  case attached => exact hsound.held
  case answered =>
    intro view
    rw [Endpoint.attach]
    split <;> rfl
  case granted =>
    intro before after hl
    rw [hl] at hpath
    obtain ⟨s₁, s₂, hbefore, hstep, -⟩ := hpath.split
    cases hstep with
    | attached hheld =>
      have hcurrent := (hbefore.sound hfree).held
      rw [hheld] at hcurrent
      exact Option.isSome_eq_false_iff.1 hcurrent |> Option.isNone_iff_eq_none.1
  case refused =>
    intro before after hl
    rw [hl] at hpath
    obtain ⟨s₁, s₂, hbefore, hstep, -⟩ := hpath.split
    cases hstep with
    | refused hheld => exact (hbefore.sound hfree).held.trans hheld
  case delivered => exact hpath.delivered_eq hfree
  case received => exact fun t ht => (hsound.fair ht).received
  case posted => exact fun t ht => (hsound.fair ht).posted
  case once => exact hsound.deliveries_lt
  case silent =>
    intro before after hl
    rw [hl] at hpath
    obtain ⟨s₁, s₂, -, hstep, hafter⟩ := hpath.split
    cases hstep with
    | shutDown => exact (hafter.silent rfl).1
  case yields => exact fun view h hup => read_of_isAttached h hup
  case fresh =>
    intro hfree' view moves' frames
    have hmove : ((e.run moves).2.requeue frames).move (.attach view) =
        (e.run moves).2.move (.attach view) := by
      rw [Endpoint.move, Endpoint.move, H.attach_requeue hfree' view frames]
    rw [Endpoint.run, Endpoint.run, hmove]

/-- A frame that is posted before the first view attaches, and one that the view leaves behind, are
not for the second view. -/
theorem exclusive_two_views :
    let e : Endpoint :=
      { host := { desk := { target := "updates", repository := {} } }
        environment := ⟨fun _ => false, fun _ => false⟩ }
    let pong := Message.pong ⟨true, none⟩
    let r := e.run [.post (.saveResult true), .attach "first", .attach "second", .post pong,
      .post (.saveResult false), .deliver, .leave "first", .attach "second", .post pong,
      .read "second", .shutdown, .post pong, .read "second"]
    Exclusive r.1 r.2 ∧ (Account.ofLog r.1).attachments =
      [⟨1, [pong.frame, (Message.saveResult false).frame], [pong.frame]⟩,
        ⟨3, [pong.frame, pong.frame], [pong.frame]⟩] :=
  ⟨run_exclusive rfl rfl _, rfl⟩

end Endpoint
end PublishDesk
