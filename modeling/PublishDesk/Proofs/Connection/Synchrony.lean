import PublishDesk.Proofs.Connection.Exchange
import PublishDesk.Proofs.Host.Polls

/-!
# What a view shows after it has asked

If nothing is under way and the view asks for the status, it comes to show how things are: whether
the worker is up, and where the open review is (`Scene.Reachable.synchronized`). While the sides
settle, every job that is left answers a ping, and has been told how things are
(`Dialogue.Synchronizing`). So whatever it posts is the same status, and the ping that the view has
posted makes sure that one of them posts it.
-/

namespace PublishDesk

open Job

/-! ## What is shown -/

/-- The state shows a status. -/
def ViewState.Shows (status : HostStatus) (s : ViewState) : Prop :=
  s.server = (if status.serverActive then .running else .down) ∧ s.reviewLink = status.reviewLink

namespace Session

variable {status : HostStatus} {s : Session}

theorem shows_handle (status : HostStatus) (s : Session) :
    (s.handle (.pong status)).state.Shows status := by
  rw [handle]
  split
  · next h =>
    -- Nothing is published, since nothing changes.
    rw [ViewState.sameStatus, Bool.and_eq_true, beq_iff_eq, beq_iff_eq] at h
    exact h
  · exact ⟨rfl, rfl⟩

theorem shows_ring (h : s.state.Shows status) (a : Alarm) : (s.ring a).state.Shows status := by
  cases a with
  | poll n => exact h
  | clear g =>
    rw [ring]
    split
    · rw [publish, ViewState.clear]
      split <;> exact h
    · exact h

theorem shows_ringDue (h : s.state.Shows status) : s.ringDue.state.Shows status := by
  rw [ringDue]
  generalize (s.alarms.filter (·.1 ≤ s.now)).map (·.2) = due
  have hstate : Session.state { s with alarms := s.alarms.filter (s.now < ·.1) } = s.state := rfl
  rw [← hstate] at h
  generalize ({ s with alarms := s.alarms.filter (s.now < ·.1) } : Session) = t at h
  induction due generalizing t with
  | nil => exact h
  | cons a due ih => exact ih _ (shows_ring h a)

end Session

namespace Dialogue

variable {target : String} {settings : ViewSettings} {s : Surroundings} {last : Option String}
  {d e : Dialogue} {asks : List Message} {i : Nat} {c : Crowd Unit} {m : Mark}

/-! ## While the sides settle -/

/-- Every job has ended, or answers a ping and has been told how things are. All that has been
posted is the status that it has found, and if the view does not show it yet, it will. -/
structure Synchronizing (target : String) (s : Surroundings) (last : Option String)
    (asks : List Message) (d : Dialogue) : Prop where
  sound : Sound target asks d
  run : ∃ l, HostCrowd.Run target l d.host
  /-- The host has begun all saves that have been asked for. -/
  begun : d.asked.length ≤ d.host.saves
  jobs : ∀ (i : Nat) p, d.host.crowd.jobs[i]? = some p → p = .ready (.done ()) ∨
    d.host.origins[i]? = some .ping ∧ ∀ e ∈ d.host.steps i, e.2 = s.answer last e.1
  link : s.link target d.lastLink = s.link target last
  answers : ∀ a ∈ d.answers, a.2 = .pong (s.report target last)
  awaited : d.view.state.Shows (s.report target last) ∨ .ping ∈ asks ∨ d.host.Owes ∨ d.answers ≠ []

theorem Synchronizing.setView (H : Synchronizing target s last asks d) {asks' : List Message}
    {view : Session} (hview : view.Stands (asks ++ asks'))
    (hnone : asks'.filterMap Message.request? = [])
    (hshows : d.view.state.Shows (s.report target last) →
      view.state.Shows (s.report target last)) :
    Synchronizing target s last (asks ++ asks') { d with view := view } := by
  refine ⟨H.sound.setView hview hnone, H.run, H.begun, H.jobs, H.link, H.answers, ?_⟩
  exact H.awaited.imp hshows (Or.imp_left (List.mem_append_left _))

/-- The host is given what the view has asked first: no save, but it may be a ping. -/
theorem Synchronizing.ask (H : Synchronizing target s last asks d) {n : Message} {bus : Bus Unit}
    (h : d.view.bus.receive = (some n.frame, bus)) : ∃ rest, asks = n :: rest ∧
      Synchronizing target s last rest
        { d with view := { d.view with bus := bus }, host := d.host.handle target n } := by
  obtain ⟨rest, rfl, hsound⟩ := H.sound.ask h
  obtain ⟨l, hl⟩ := H.run
  have hrequest : n.request? = none := by
    have hwaiting := H.sound.waiting
    rw [List.drop_eq_nil_of_le H.begun] at hwaiting
    exact List.filterMap_eq_nil_iff.1 hwaiting.symm n (.head _)
  refine ⟨rest, rfl, hsound, ⟨_, hl.take n⟩, ?_, fun i p hi => ?_, ?_, H.answers, ?_⟩
  · exact Nat.le_trans H.begun ((d.host.saves_handle target n).symm ▸ Nat.le_add_right _ _)
  · obtain ⟨o, ho⟩ := hsound.host.origin_of_job hi
    have hsteps : (d.host.handle target n).steps i = d.host.steps i :=
      HostCrowd.steps_handle n d.host i
    obtain hold | ⟨hnew, rfl | ⟨message, rfl, -⟩⟩ := HostCrowd.getElem?_handle ho
    · obtain ⟨p', hp', -⟩ := H.sound.host.exists_leads hold
      obtain rfl := Option.some.inj (hi.symm.trans (HostCrowd.getElem?_jobs_handle hp'))
      refine (H.jobs i p hp').imp_right fun ⟨hping, hby⟩ => ?_
      exact ⟨HostCrowd.getElem?_handle_of_some hping, hsteps ▸ hby⟩
    · refine .inr ⟨ho, fun e he => ?_⟩
      rw [hsteps, H.sound.host.steps_eq_nil (Nat.le_of_eq hnew.symm)] at he
      cases he
    · cases hrequest
  · rw [lastLink, HostCrowd.log_handle]
    exact H.link
  · obtain hshows | hping | howes | hanswers := H.awaited
    · exact .inl hshows
    · obtain rfl | hping := List.mem_cons.1 hping
      · -- The job that is under way, or else a new one, answers this ping too.
        refine .inr (.inr (.inl ?_))
        exact ((hl.take .ping).polled.awaited l [] rfl).resolve_left fun h => h rfl
      · exact .inr (.inl hping)
    · exact .inr (.inr (.inl (howes.handle n)))
    · exact .inr (.inr (.inr hanswers))

/-- A job that makes a step answers a ping. -/
theorem Synchronizing.mark (H : Synchronizing target s last asks d)
    (hs : Crowd.Step i d.host.crowd c) (hm : c.log = d.host.crowd.log ++ [(i, m)]) :
    d.host.origins[i]? = some .ping ∧ (∀ e ∈ d.host.steps i, e.2 = s.answer last e.1) ∧
      ∀ q a, m = .met ⟨q, a⟩ → s.PollStep target last q := by
  obtain ⟨m', p, p', hi, hadv, hlog, -⟩ := hs.inv
  obtain ⟨-, heq⟩ := List.append_inj' (hlog.symm.trans hm) rfl
  cases heq
  obtain rfl | ⟨hping, hby⟩ := H.jobs i p hi
  · cases hadv
  · refine ⟨hping, hby, ?_⟩
    rintro q a rfl
    obtain ⟨p₁, hp₁, hleads⟩ := H.sound.host.exists_leads hping
    obtain rfl := Option.some.inj (hi.symm.trans hp₁)
    obtain ⟨next, hrest⟩ : ∃ next, p.rest = .ask q next := by
      cases hadv <;> exact ⟨_, rfl⟩
    exact Surroundings.pollStep_of_leads (hrest ▸ hleads) hby

/-- It is told how things are if and only if it gets the answers that say so. -/
theorem Synchronizing.told_iff (H : Synchronizing target s last asks d)
    (hs : Crowd.Step i d.host.crowd c) (hm : c.log = d.host.crowd.log ++ [(i, m)]) :
    s.Told d.lastLink m ↔ m.IsBy (s.answer last) := by
  obtain ⟨-, -, hq⟩ := H.mark hs hm
  obtain r | ⟨q, a⟩ := m
  · exact ⟨fun _ => nofun, fun _ => trivial⟩
  · rw [(hq q a rfl).told_iff H.link]
    refine ⟨fun ha q' a' h => ?_, fun h => h q a rfl⟩
    cases h
    exact ha

/-- The job has been told how things are in this step too, and the others make none. -/
theorem Synchronizing.jobs_note (H : Synchronizing target s last asks d)
    (hs : Crowd.Step i d.host.crowd c) (hm : c.log = d.host.crowd.log ++ [(i, m)])
    (ht : s.Told d.lastLink m) {j : Nat} {p : Standing Unit} (hj : c.jobs[j]? = some p) :
    p = .ready (.done ()) ∨ d.host.origins[j]? = some .ping ∧
      ∀ e ∈ (d.host.note c m).steps j, e.2 = s.answer last e.1 := by
  obtain ⟨hping, hby, -⟩ := H.mark hs hm
  have htold := (H.told_iff hs hm).1 ht
  rw [HostCrowd.steps_note hm]
  by_cases hji : j = i
  · subst hji
    refine .inr ⟨hping, fun e he => ?_⟩
    obtain he | he := List.mem_append.1 he
    · exact hby e he
    · rw [if_pos rfl] at he
      obtain r | ⟨q, a⟩ := m
      · cases he
      · obtain rfl := List.mem_singleton.1 he
        exact htold q a rfl
  · rw [if_neg hji, List.append_nil]
    obtain ⟨o, ho⟩ := (H.sound.host.note (m := m) hs).origin_of_job hj
    obtain ⟨p', hp', -⟩ := H.sound.host.exists_leads ho
    refine (H.jobs j p' hp').imp_left ?_
    rintro rfl
    exact Option.some.inj (hj.symm.trans (hs.ne_of_done hp').2)

/-- Posting the status in a step is what the ping has been waiting for. -/
theorem Synchronizing.awaited_note (H : Synchronizing target s last asks d)
    (hm : c.log = d.host.crowd.log ++ [(i, m)]) :
    d.view.state.Shows (s.report target last) ∨ .ping ∈ asks ∨ (d.host.note c m).Owes ∨
      d.answers ++ m.posted?.toList.map (i, ·) ≠ [] := by
  obtain hshows | hping | ⟨j, hj, hposts⟩ | hanswers := H.awaited
  · exact .inl hshows
  · exact .inr (.inl hping)
  · cases hposted : m.posted? with
    | some n => exact .inr (.inr (.inr (by simp)))
    | none =>
      refine .inr (.inr (.inl ⟨j, hj, ?_⟩))
      rw [HostCrowd.steps_note hm, posts_append, hposts]
      split
      · rw [HostCrowd.posts_stepsOf, hposted]
        rfl
      · rfl
  · exact .inr (.inr (.inr fun h => hanswers (List.append_eq_nil_iff.1 h).1))

theorem Synchronizing.work (H : Synchronizing target s last asks d)
    (hs : Crowd.Step i d.host.crowd c) (hm : c.log = d.host.crowd.log ++ [(i, m)])
    (ht : s.Told d.lastLink m) : Synchronizing target s last asks
      { d with host := d.host.note c m, answers := d.answers ++ m.posted?.toList.map (i, ·) } := by
  obtain ⟨-, -, hpoll⟩ := H.mark hs hm
  have htold := (H.told_iff hs hm).1 ht
  obtain ⟨l, hl⟩ := H.run
  refine ⟨H.sound.work hs hm, ⟨_, hl.work hs hm⟩, H.begun, fun j p hj => H.jobs_note hs hm ht hj,
    ?_, fun a ha => ?_, H.awaited_note hm⟩
  · have hlast : lastLink { d with
        host := d.host.note c m, answers := d.answers ++ m.posted?.toList.map (i, ·) } =
        m.link d.lastLink := by
      rw [lastLink, HostCrowd.note, hm, Mark.lastLink_append]
      rfl
    rw [hlast]
    obtain r | ⟨q, a⟩ := m
    · exact H.link
    · obtain rfl := htold q a rfl
      exact (hpoll q _ rfl).link_after H.link
  · obtain ha | ha := List.mem_append.1 ha
    · exact H.answers a ha
    · obtain ⟨n, hn, rfl⟩ := List.mem_map.1 ha
      obtain rfl := posted?_eq_some_iff.1 (Option.mem_toList.1 hn)
      cases hpoll _ _ rfl with
      | post => rfl

/-- The view takes an answer, and shows how things are. -/
theorem Synchronizing.answer (H : Synchronizing target s last asks d) {n : Message}
    {rest : List (Nat × Message)} (h : d.answers = (i, n) :: rest) :
    Synchronizing target s last asks
      { d with view := (d.view.dispatch n.frame).2, answers := rest } := by
  obtain ⟨hdispatch, hsound⟩ := H.sound.answer h
  obtain rfl : n = .pong (s.report target last) := H.answers (i, n) (h ▸ .head _)
  rw [hdispatch]
  refine ⟨hsound, H.run, H.begun, H.jobs, H.link, fun a ha => ?_, .inl ?_⟩
  · exact H.answers a (h ▸ .tail _ ha)
  · exact Session.shows_handle _ _

theorem Synchronizing.step (H : Synchronizing target s last asks d) (h : StepIn target s d e)
    (hasked : e.asked = d.asked) : ∃ asks', Synchronizing target s last asks' e := by
  obtain ⟨hstep, htold⟩ := h
  cases hstep with
  | save h =>
    have hlength := congrArg List.length hasked
    simp [accept] at hlength
  | poll => exact ⟨_, H.setView H.sound.view.poll rfl id⟩
  | runLoop =>
    obtain ⟨asks', hview, hnone, -⟩ := H.sound.view.runLoop
    refine ⟨_, H.setView hview hnone fun h => ?_⟩
    rw [Session.runLoop]
    split <;> exact h
  | stopLoop =>
    have hview := (List.append_nil asks).symm ▸ H.sound.view.stopLoop
    exact ⟨_, H.setView hview rfl id⟩
  | @pass now h =>
    have hview : Session.Stands asks { d.view with now := now } :=
      H.sound.view.congr rfl rfl (.refl _)
    obtain ⟨asks', hring, hnone, -⟩ := hview.ringDue
    refine ⟨_, H.setView hring hnone fun h => ?_⟩
    exact Session.shows_ringDue (s := { d.view with now := now }) h
  | ask h =>
    obtain ⟨rest, -, H'⟩ := H.ask h
    exact ⟨rest, H'⟩
  | work hs hm => exact ⟨asks, H.work hs hm (htold _ _ hm)⟩
  | answer h => exact ⟨asks, H.answer h⟩

/-! ## When all has settled -/

/-- While the working tree is free, no job rests but those that have ended. -/
theorem Sound.done_of_rests (H : Sound target asks d) (hfree : d.host.crowd.lock.held = false)
    (hrests : ∀ p ∈ d.host.crowd.jobs, p.Rests) :
    ∀ p ∈ d.host.crowd.jobs, p = .ready (.done ()) := by
  intro p hp
  obtain ⟨l, hl⟩ := H.host.orderly
  obtain ⟨j, hj⟩ := List.getElem?_of_mem hp
  have hfits := hl.fits j p hj
  have hnone : l.holder = none := Option.not_isSome_iff_eq_none.1 (by simp [← hl.held, hfree])
  have hplace : l.place j ≠ .holding := by
    intro h
    rw [Crowd.Ledger.holder_of_place h] at hnone
    cases hnone
  have hwaiting : l.place j ≠ .waiting := by
    intro h
    have hmem := Crowd.Ledger.mem_waiting_of_place h
    rw [hl.idle hnone] at hmem
    cases hmem
  cases hrests p hp with
  | ended a => rfl
  | waits q => exact absurd (Standing.place_of_waiting hfits) hwaiting
  | pushes h =>
    cases p with
    | ready q =>
      obtain rfl : q = _ := h
      obtain ⟨hold, hat, hkeeps⟩ := Standing.fits_ready_iff.1 hfits
      obtain ⟨rfl, -⟩ := hkeeps.of_call
      exact absurd hat hplace
    | calling r next => exact absurd (Standing.fits_calling_iff.1 hfits).1 hplace
    | waiting q => exact absurd (Standing.place_of_waiting hfits) hwaiting

/-- No job that answers a ping rests but those that have ended. -/
theorem Synchronizing.done_of_rests (H : Synchronizing target s last asks d)
    (hrests : ∀ p ∈ d.host.crowd.jobs, p.Rests) :
    ∀ p ∈ d.host.crowd.jobs, p = .ready (.done ()) := by
  obtain ⟨l, hl⟩ := H.sound.host.orderly
  intro p hp
  by_contra hnot
  obtain ⟨i, hi⟩ := List.getElem?_of_mem hp
  -- Some job could make a step, so it does not rest.
  obtain ⟨j, c, ⟨hs, -⟩, -⟩ := hl.progress HostStep.plainAnswer hi fun u => hnot
  obtain ⟨m, p, p', hj, hadv, -⟩ := hs.inv
  cases hrests p (List.mem_of_getElem? hj) with
  | ended a => cases hadv
  | waits q => cases hadv
  | pushes h =>
    obtain rfl | ⟨hping, hby⟩ := H.jobs j p hj
    · cases h
    · obtain ⟨p₁, hp₁, hleads⟩ := H.sound.host.exists_leads hping
      obtain rfl := Option.some.inj (hj.symm.trans hp₁)
      cases Surroundings.pollStep_of_leads (h ▸ hleads) hby

theorem Synchronizing.shows (H : Synchronizing target s last [] d) (hanswers : d.answers = [])
    (hrests : ∀ p ∈ d.host.crowd.jobs, p.Rests) :
    d.view.state.Shows (s.report target last) := by
  obtain hshows | hping | ⟨j, hj, hposts⟩ | hnot := H.awaited
  · exact hshows
  · cases hping
  · obtain ⟨p, hp, -⟩ := H.sound.host.exists_leads hj
    obtain rfl := H.done_of_rests hrests p (List.mem_of_getElem? hp)
    exact absurd hposts ((H.sound.host.done_iff hj).1 hp)
  · exact absurd hanswers hnot

/-! ## The sides do settle -/

/-- The jobs can end, and all that they post waits for the view then. -/
theorem Synchronizing.exists_done (H : Synchronizing target s last asks d) :
    ∃ e, Settles target s d e ∧ Synchronizing target s last asks e ∧
      ∀ p ∈ e.host.crowd.jobs, p = .ready (.done ()) := by
  obtain ⟨l, hl⟩ := H.sound.host.orderly
  obtain ⟨c, hc, hdone⟩ := hl.exists_finish_by (s.answer last)
  suffices hreach : ∃ e, Settles target s d e ∧ Synchronizing target s last asks e ∧
      e.host.crowd = c by
    obtain ⟨e, he, H', rfl⟩ := hreach
    exact ⟨e, he, H', fun p hp => (hdone p hp).choose_spec⟩
  clear hdone
  induction hc with
  | refl => exact ⟨d, .refl, H, rfl⟩
  | tail _ hs ih =>
    obtain ⟨e, he, H', rfl⟩ := ih
    obtain ⟨i, hs, m, hm, hby⟩ := hs
    have ht := (H'.told_iff hs hm).2 hby
    exact ⟨_, he.tail ⟨.work hs hm ht, rfl⟩, H'.work hs hm ht, rfl⟩

/-- The view can take all that has been posted for it. -/
theorem Synchronizing.exists_taken (H : Synchronizing target s last asks d) :
    ∃ e, Settles target s d e ∧ Synchronizing target s last asks e ∧ e.answers = [] ∧
      e.host = d.host := by
  obtain ⟨view, host, answers, asked⟩ := d
  induction answers generalizing view with
  | nil => exact ⟨_, .refl, H, rfl, rfl⟩
  | cons a rest ih =>
    obtain ⟨i, m⟩ := a
    have hstep : Step target ⟨view, host, (i, m) :: rest, asked⟩ _ := .answer rfl
    obtain ⟨e, he, H', hnone, hhost⟩ := ih _ (H.answer rfl)
    exact ⟨e, .head ⟨hstep.stepIn rfl s, rfl⟩ he, H', hnone, hhost⟩

/-- The host can be given a ping. -/
theorem Synchronizing.exists_asked (H : Synchronizing target s last [.ping] d) :
    ∃ e, Settles target s d e ∧ Synchronizing target s last [] e := by
  have hreceive : d.view.bus.receive =
      (some Message.ping.frame, { d.view.bus with outbound := some [] }) := by
    rw [Bus.receive, H.sound.view.outbound]
    rfl
  have hstep : Step target d _ := .ask hreceive
  obtain ⟨rest, hrest, H'⟩ := H.ask hreceive
  obtain ⟨-, rfl⟩ := List.cons.inj hrest
  exact ⟨_, .single ⟨hstep.stepIn (HostCrowd.log_handle _ _) s, rfl⟩, H'⟩

end Dialogue

namespace Scene

open Dialogue (Synchronizing)

variable {target : String} {settings : ViewSettings} {x y : Scene} {last : Option String}
  {asks : List Message}

theorem Settled.asks_eq (hx : x.Settled) (H : Dialogue.Sound target asks x.dialogue) :
    asks = [] := by
  have hnone := H.view.outbound.symm.trans hx.asks
  exact List.map_eq_nil_iff.1 (Option.some.inj hnone)

theorem Settled.synchronizing (hx : x.Settled) (h : Reachable target settings x)
    (hfree : x.dialogue.host.crowd.lock.held = false) :
    Synchronizing target x.around x.dialogue.lastLink [.ping] x.poll.dialogue := by
  obtain ⟨asks, H⟩ := h.dialogue.sound
  obtain rfl := hx.asks_eq H
  have hdone := H.done_of_rests hfree hx.jobs
  refine ⟨H.setView H.view.poll rfl, h.dialogue.exists_run, List.drop_eq_nil_iff.1 H.waiting,
    fun i p hi => .inl (hdone p (List.mem_of_getElem? hi)), rfl, ?_, .inr (.inl (.head _))⟩
  rw [poll, hx.answers]
  exact nofun

theorem Settling.synchronizing (h : Settling target x y)
    (H : Synchronizing target x.around last asks x.dialogue) :
    ∃ asks', Synchronizing target x.around last asks' y.dialogue := by
  suffices hall : y.around = x.around ∧ ∃ asks', Synchronizing target x.around last asks' y.dialogue
    from hall.2
  induction h with
  | refl => exact ⟨rfl, asks, H⟩
  | tail _ hs ih =>
    obtain ⟨haround, asks', H'⟩ := ih
    obtain ⟨hs, hsame, hasked⟩ := hs
    refine ⟨hsame.trans haround, ?_⟩
    cases hs with
    | go h => exact H'.step (haround ▸ h) hasked
    | change s => exact ⟨asks', H'⟩

theorem exists_settled (H : Synchronizing target x.around last [.ping] x.dialogue) :
    ∃ y, Settling target x y ∧ y.Settled := by
  obtain ⟨d₁, h₁, H₁⟩ := H.exists_asked
  obtain ⟨d₂, h₂, H₂, hdone⟩ := H₁.exists_done
  obtain ⟨d₃, h₃, H₃, hanswers, hhost⟩ := H₂.exists_taken
  refine ⟨⟨d₃, x.around⟩, settling_of_settles (h₁.trans (h₂.trans h₃)), H₃.sound.view.outbound,
    hanswers, fun p hp => ?_⟩
  rw [hdone p (hhost ▸ hp)]
  exact .ended ()

/-- If nothing is under way, the working tree is free, and the view asks for the status, the sides
can settle, and whenever they have settled the view shows whether the worker is up and where the
open review is. If the branch cannot be read, it shows the link that the host has answered with
last. -/
theorem Reachable.synchronized (h : Reachable target settings x) (hx : x.Settled)
    (hfree : x.dialogue.host.crowd.lock.held = false) :
    (∃ y, Settling target x.poll y ∧ y.Settled) ∧
      ∀ y, Settling target x.poll y → y.Settled →
        y.dialogue.view.state.server =
            (if x.around.worker.any Supervisor.isRunning then .running else .down) ∧
          y.dialogue.view.state.reviewLink =
            match x.around.branch with
            | .error _ => x.dialogue.lastLink
            | .ok name => if name = target then x.around.review.toOption.join else none := by
  have H := hx.synchronizing h hfree
  refine ⟨exists_settled (x := x.poll) H, fun y hy hsettled => ?_⟩
  obtain ⟨asks, H'⟩ := hy.synchronizing (x := x.poll) H
  obtain rfl := hsettled.asks_eq H'.sound
  exact H'.shows hsettled.answers hsettled.jobs

/-- A connection on which a save has succeeded, and a ping has been answered with the link to an
open review. -/
def savedConnection : Connection :=
  [.move (.save "rewrite the intro"), .move .exchange, .move .poll, .move .exchange].foldl
    Connection.act
    (Connection.opened "updates" { current := "updates", branches := ["updates"], dirty := true }
      (.ok (some "https://example.test/pr/9")) none {})

/-- Then the worker has come up and the branch cannot be read any more, so a view that asks again
goes on to show the link of that answer. -/
theorem synchronized_after_save :
    ∃ x : Scene, Reachable "updates" {} x ∧ x.Settled ∧
      x.dialogue.host.crowd.lock.held = false ∧ x.dialogue.view.state.save = .succeeded ∧
      x.around.branch = .error "no branch" ∧ x.around.review = .ok none ∧
      ∃ y, Settling "updates" x.poll y ∧ y.Settled ∧ y.dialogue.view.state.server = .running ∧
        y.dialogue.view.state.reviewLink = some "https://example.test/pr/9" := by
  obtain ⟨hview, hhost, hended, hlock, hlink, hsave⟩ :
      savedConnection.view.bus.outbound = some [] ∧
        savedConnection.host.desk.host.bus.outbound = some [] ∧
        savedConnection.host.ended.map (·.1) = List.range savedConnection.host.started ∧
        savedConnection.host.desk.lock.held = false ∧
        savedConnection.host.desk.host.lastLink = some "https://example.test/pr/9" ∧
        savedConnection.view.state.save = .succeeded := by
    decide +kernel
  obtain ⟨x, ⟨s, hsteps⟩, hplays, -⟩ : ∃ x, Reachable "updates" {} x ∧
      Dialogue.Plays "updates" savedConnection x.dialogue ∧
        x.around = savedConnection.host.desk.surroundings := exists_reachable ..
  have hx := settled_of_plays hplays hview hhost hended
  let worker : Supervisor := { command := ["reSsg", "serve"], directory := [], status := .running }
  let z : Scene := ⟨x.dialogue, ⟨.error "no branch", .ok none, some worker⟩⟩
  have hreach : Reachable "updates" {} z := ⟨s, hsteps.tail (.change _)⟩
  have hsettled : z.Settled := ⟨hx.asks, hx.answers, hx.jobs⟩
  have hfree : z.dialogue.host.crowd.lock.held = false := by
    rw [hplays.hosted.hosts.crew.lock]
    exact hlock
  have hlast : z.dialogue.lastLink = some "https://example.test/pr/9" :=
    hplays.hosted.link.symm.trans hlink
  obtain ⟨⟨y, hy, hrest⟩, hall⟩ := Reachable.synchronized hreach hsettled hfree
  obtain ⟨hserver, hreview⟩ := hall y hy hrest
  refine ⟨z, hreach, hsettled, hfree, ?_, rfl, rfl, y, hy, hrest, hserver, hreview.trans hlast⟩
  rw [← hplays.view]
  exact hsave

end Scene
end PublishDesk
