import PublishDesk.Proofs.Connection.Scene

/-!
# Exchanges, step by step

A connection hands over all frames of a side at once, lets the jobs of the host take turns in
between, and passes from one time at which the view has something to do to the next. Whatever it
does can be done step by step, so each of its states is one of a dialogue
(`Dialogue.exists_reachable`), and of a scene with what surrounds its host
(`Scene.exists_reachable`).
-/

namespace PublishDesk

/-- With nothing due, nothing is done. -/
theorem Session.Rested.ringDue_eq {s : Session} (h : s.Rested) : s.ringDue = s := by
  have hnone : s.alarms.filter (·.1 ≤ s.now) = [] :=
    List.filter_eq_nil_iff.2 fun a ha => by simpa using h a ha
  have hall : s.alarms.filter (s.now < ·.1) = s.alarms :=
    List.filter_eq_self.2 fun a ha => by simpa using h a ha
  rw [Session.ringDue, hnone, hall]
  rfl

namespace Connection

/-- What is done with a connection, and what happens around its host. -/
inductive Deed where
  | move (m : Move)
  /-- The look-up of the open review gives something else. -/
  | review (answer : Except ReviewFailure (Option String))
  /-- The worker starts, ends or is stopped. -/
  | worker (worker : Option Supervisor)

def act (c : Connection) : Deed → Connection
  | .move m => c.move m
  | .review answer => { c with
    host := { c.host with desk := { c.host.desk with review := answer } } }
  | .worker worker => { c with
    host := { c.host with desk := { c.host.desk with worker := worker } } }

end Connection

namespace Dialogue

/-- A host stands as that of a dialogue. -/
structure Hosted (target : String) (host : HostCrew) (d : Dialogue) : Prop where
  hosts : d.host.Hosts target host
  queue : host.Stands (d.answers.map (·.2))
  link : host.desk.host.lastLink = d.lastLink

variable {target : String} {settings : ViewSettings} {c : Connection} {host host' : HostCrew}
  {d e : Dialogue} {asks : List Message}

/-! ## The frames of the view -/

theorem Hosted.congr (h : Hosted target host d) (hhost : e.host = d.host)
    (hanswers : e.answers = d.answers) : Hosted target host e where
  hosts := hhost ▸ h.hosts
  queue := hanswers ▸ h.queue
  link := by
    rw [h.link, lastLink, lastLink, hhost]

/-- What surrounds the host does not matter. -/
theorem Hosted.setCrew (h : Hosted target host d) (hcrew : host'.Matches d.host.crowd)
    (htarget : host'.desk.target = host.desk.target) (hhost : host'.desk.host = host.desk.host) :
    Hosted target host' d where
  hosts := ⟨htarget.trans h.hosts.target_eq, hcrew, hhost ▸ h.hosts.polling⟩
  queue := h.queue.congr (congrArg Host.bus hhost) (congrArg Host.kept hhost)
  link := hhost ▸ h.link

theorem Hosted.handle (h : Hosted target host d) (m : Message) (view : Session) :
    Hosted target (HostCrew.handle m host)
      { d with view := view, host := d.host.handle target m } := by
  refine ⟨h.hosts.handle m, h.queue.handle m, ?_⟩
  have hlink : lastLink { d with view := view, host := d.host.handle target m } = d.lastLink := by
    rw [lastLink, HostCrowd.log_handle]
    rfl
  rw [hlink, ← h.link]
  cases m with
  | ping =>
    rw [HostCrew.handle]
    split <;> rfl
  | requestSave | pong | saveResult => rfl

/-- The host takes the frames one by one. -/
theorem Hosted.taken (h : Hosted target host d) (H : Sound target asks d) :
    ∃ e, ToldSteps target d e ∧ Hosted target (HostCrew.dispatchAll (asks.map (·.frame)) host).2 e ∧
      e.view = { d.view with bus := { d.view.bus with outbound := some [] } } := by
  induction asks generalizing host d with
  | nil =>
    have hnone : d.view.bus.outbound = some [] := H.view.outbound
    exact ⟨d, .refl, h, by rw [← hnone]⟩
  | cons m asks ih =>
    have hreceive : d.view.bus.receive =
        (some m.frame, { d.view.bus with outbound := some (asks.map (·.frame)) }) := by
      rw [Bus.receive, H.view.outbound]
      rfl
    obtain ⟨asks', heq, H'⟩ := H.ask hreceive
    obtain ⟨-, rfl⟩ := List.cons.inj heq
    have hdispatch := (HostCrew.dispatch_frame h.queue (H.view.asks m (.head _))).1
    have hnext := congrArg Prod.snd hdispatch
    have hstep : Step target d _ := .ask hreceive
    have htold := hstep.stepIn (HostCrowd.log_handle _ _) host.desk.surroundings
    obtain ⟨e, hsteps, h', hview⟩ := ih (h.handle m _) H'
    rw [List.map_cons, HostCrew.dispatchAll, hnext]
    exact ⟨e, .head ⟨_, htold⟩ hsteps, h', hview⟩

/-! ## The turns of the jobs -/

theorem steps_of_crowd {crowd : Crowd Unit}
    (h : Relation.ReflTransGen (fun x y => ∃ i, Crowd.Step i x y) d.host.crowd crowd) :
    ∃ e marks, crowd.log = d.host.crowd.log ++ marks ∧ e.host.crowd = crowd ∧
      (∀ last, Surroundings.Tells d.lastLink (marks.map (·.2)) last →
        ToldSteps target d e ∧ e.lastLink = last) ∧
      e.host.polling = (marks.map (·.2)).foldl Mark.polling d.host.polling ∧
      e.answers.map (·.2) = d.answers.map (·.2) ++ marks.filterMap (·.2.posted?) ∧
      e.view = d.view := by
  induction h with
  | refl =>
    exact ⟨d, [], (List.append_nil _).symm, rfl, fun last h => ⟨.refl, h.eq_foldl.symm⟩, rfl,
      (List.append_nil _).symm, rfl⟩
  | tail _ hs ih =>
    obtain ⟨e, marks, hlog, rfl, htold, hpolling, hanswers, hview⟩ := ih
    obtain ⟨i, hs⟩ := hs
    obtain ⟨m, -, -, -, -, hm, -⟩ := hs.inv
    refine ⟨{ e with
        host := e.host.note _ m, answers := e.answers ++ m.posted?.toList.map (i, ·) },
      marks ++ [(i, m)], ?_, rfl, fun last h => ?_, ?_, ?_, hview⟩
    · rw [hm, hlog, List.append_assoc]
    · have hlast := h.eq_foldl
      rw [List.map_append] at h hlast
      obtain ⟨s, hfront, hm'⟩ := h.of_concat
      obtain ⟨hsteps, hlink⟩ := htold _ hfront
      refine ⟨hsteps.tail ⟨s, .work hs hm (hlink ▸ hm')⟩, ?_⟩
      rw [hlast, List.foldl_append, ← hlink, lastLink, HostCrowd.note, hm, Mark.lastLink_append]
      rfl
    · rw [List.map_append, List.foldl_append, ← hpolling]
      rfl
    · rw [List.map_append, hanswers, List.filterMap_append, List.append_assoc]
      cases hposted : m.posted? <;> simp [hposted]

/-- A turn is a number of steps of a job. -/
theorem Hosted.turn (h : Hosted target host d) (H : Sound target asks d)
    (hturn : host.turn? = some host') :
    ∃ e, ToldSteps target d e ∧ Hosted target host' e ∧ e.view = d.view := by
  obtain ⟨ledger, hl⟩ := H.host.orderly
  obtain ⟨crowd, marks, hcrowd, hlog, hcrew, htarget, hbus, hkept, hpolling, htells⟩ :=
    h.hosts.crew.turn hl hturn
  obtain ⟨e, marks', hlog', rfl, htold, hpolling', hanswers, hview⟩ := steps_of_crowd hcrowd
  obtain rfl : marks' = marks := List.append_cancel_left (hlog'.symm.trans hlog)
  obtain ⟨hsteps, hlink⟩ := htold _ (h.link ▸ htells)
  obtain ⟨asks', H'⟩ := H.steps hsteps.steps
  refine ⟨e, hsteps, ⟨⟨htarget.trans h.hosts.target_eq, hcrew, ?_⟩, ?_, hlink.symm⟩, hview⟩
  · rw [hpolling, hpolling', h.hosts.polling]
  · rw [hanswers]
    refine h.queue.postAll hbus hkept fun m hm => ?_
    have hmem : m ∈ e.answers.map (·.2) := hanswers ▸ List.mem_append_right _ hm
    obtain ⟨a, ha, rfl⟩ := List.mem_map.1 hmem
    exact H'.answers a ha

theorem Hosted.turns (h : Hosted target host d) (H : Sound target asks d) (fuel : Nat) :
    ∃ e, ToldSteps target d e ∧ Hosted target (host.turns fuel) e ∧ e.view = d.view := by
  induction fuel generalizing host d asks with
  | zero => exact ⟨d, .refl, h, rfl⟩
  | succ fuel ih =>
    rw [Crew.turns]
    cases hturn : host.turn? with
    | none => exact ⟨d, .refl, h, rfl⟩
    | some host' =>
      obtain ⟨e, hsteps, h', hview⟩ := h.turn H hturn
      obtain ⟨asks', H'⟩ := H.steps hsteps.steps
      obtain ⟨e', hsteps', h'', hview'⟩ := ih h' H'
      exact ⟨e', hsteps.trans hsteps', h'', hview'.trans hview⟩

/-! ## The frames of the host -/

/-- The view takes the answers one by one. -/
theorem steps_answers (target : String) (s : Surroundings) (d : Dialogue) :
    ToldSteps target d
      { d with
        view := d.view.dispatchAll ((d.answers.map (·.2)).map (·.frame))
        answers := [] } := by
  obtain ⟨view, host, answers, asked⟩ := d
  induction answers generalizing view with
  | nil => exact .refl
  | cons a answers ih =>
    obtain ⟨i, m⟩ := a
    have hstep : Step target ⟨view, host, (i, m) :: answers, asked⟩ _ := .answer rfl
    exact .head ⟨s, hstep.stepIn rfl s⟩ (ih _)

/-! ## Connections -/

/-- A connection stands as a dialogue. -/
structure Plays (target : String) (c : Connection) (d : Dialogue) : Prop where
  hosted : Hosted target c.host d
  view : c.view = d.view

/-- What the view does by itself is the same on both sides. -/
theorem Plays.setView (h : Plays target c d) {view : Session}
    (hstep : Step target d { d with view := view }) :
    ToldSteps target d { d with view := view } ∧
      Plays target { c with view := view } { d with view := view } :=
  ⟨hstep.toldSteps rfl c.host.desk.surroundings, h.hosted.congr rfl rfl, rfl⟩

/-- After an exchange the view has nothing to do at this time. -/
theorem Plays.exchange (h : Plays target c d) (H : Sound target asks d) :
    ∃ e, ToldSteps target d e ∧ Plays target c.exchange e ∧ c.exchange.view.Rested ∧
      c.exchange.view.now = c.view.now := by
  obtain ⟨e₁, hsteps₁, h₁, hview₁⟩ := h.hosted.taken H
  obtain ⟨asks₁, H₁⟩ := H.steps hsteps₁.steps
  let asked := (HostCrew.dispatchAll (asks.map (·.frame)) c.host).2
  obtain ⟨e₂, hsteps₂, h₂, hview₂⟩ := h₁.turns H₁ (3 * asked.tasks.length + asked.ready.length)
  obtain ⟨asks₂, H₂⟩ := H₁.steps hsteps₂.steps
  obtain ⟨hframes, hqueue⟩ := h₂.queue.drain
  obtain ⟨hstands, -, hnow, -⟩ := H₂.view.dispatchAll fun m hm => by
    obtain ⟨a, ha, rfl⟩ := List.mem_map.1 hm
    exact H₂.answers a ha
  obtain ⟨-, -, -, -, hrested, hnow'⟩ := hstands.ringDue
  have hdrain : c.view.drain = (asks.map (·.frame), e₂.view) := by
    rw [Session.drain, Bus.drain, h.view, H.view.outbound, hview₂, hview₁]
    rfl
  have hexchange : c.exchange = ⟨(HostCrew.drain asked.settle).2,
      (e₂.view.dispatchAll ((e₂.answers.map (·.2)).map (·.frame))).ringDue⟩ := by
    rw [← hframes, Connection.exchange, hdrain]
    rfl
  rw [hexchange]
  have hanswers := (steps_answers target c.host.desk.surroundings e₂).trans
    ((Step.pass (Nat.le_refl _)).toldSteps rfl c.host.desk.surroundings)
  refine ⟨_, hsteps₁.trans (hsteps₂.trans hanswers),
    ⟨⟨⟨h₂.hosts.target_eq, h₂.hosts.crew.setDesk rfl rfl, h₂.hosts.polling⟩, hqueue, h₂.link⟩, rfl⟩,
    hrested, ?_⟩
  rw [hnow', hnow, hview₂, hview₁, h.view]

/-- Time in which the view has nothing to do. -/
theorem Plays.wait (h : Plays target c d) {time : Nat} (hnow : c.view.now ≤ time)
    (hlater : ∀ a ∈ c.view.alarms, time < a.1) :
    ∃ e, ToldSteps target d e ∧ Plays target { c with view := { c.view with now := time } } e := by
  rw [h.view] at hnow hlater ⊢
  have hrested : Session.Rested { d.view with now := time } := hlater
  have hpass : Step target d { d with view := { d.view with now := time } } := by
    rw [← hrested.ringDue_eq]
    exact .pass hnow
  exact ⟨_, h.setView hpass⟩

/-- Time passes from one thing that the view has to do to the next. -/
theorem Plays.elapse (h : Plays target c d) (H : Sound target asks d) {deadline now : Nat}
    (hnow : c.view.now ≤ now) (hle : now ≤ deadline) :
    ∃ e, ToldSteps target d e ∧ Plays target (c.elapse deadline now) e := by
  -- After an exchange nothing is due, so the next round is later and less time is left.
  induction hn : deadline - now using Nat.strong_induction_on generalizing c d asks now with
  | _ n ih =>
    have hring : Step target d { d with view := Session.ringDue { d.view with now := now } } :=
      .pass (h.view ▸ hnow)
    obtain ⟨asks₁, H₁⟩ := H.step hring
    obtain ⟨hrings, h₁⟩ := h.setView hring
    have hstands : Session.Stands asks { d.view with now := now } := H.view.congr rfl rfl (.refl _)
    obtain ⟨-, -, -, -, -, hrung⟩ := hstands.ringDue
    rw [Connection.elapse, h.view]
    generalize
      ({ c with view := Session.ringDue { d.view with now := now } } : Connection) = c' at *
    obtain ⟨e, hsteps, h', hrested, hnow'⟩ := h₁.exchange H₁
    obtain ⟨asks', H'⟩ := H₁.steps hsteps.steps
    have hnow'' : c'.exchange.view.now = now := by rw [hnow', h₁.view, hrung]
    have hreach := hrings.trans hsteps
    have hdone (hlater : ∀ a ∈ c'.exchange.view.alarms, deadline < a.1) :
        ∃ e, ToldSteps target d e ∧
          Plays target
            { c'.exchange with view := { c'.exchange.view with now := deadline } } e := by
      obtain ⟨e', hwait, h''⟩ := h'.wait (hnow''.trans_le hle) hlater
      exact ⟨e', hreach.trans hwait, h''⟩
    dsimp only
    cases hnext : c'.exchange.view.nextDue? with
    | none =>
      have halarms := List.map_eq_nil_iff.1 (List.min?_eq_none_iff.1 hnext)
      exact hdone (by simp [halarms])
    | some next =>
      obtain ⟨⟨a, ha, rfl⟩, hfirst⟩ := Session.of_nextDue?_eq_some hnext
      have hlt : now < a.1 := hnow'' ▸ hrested a ha
      dsimp only
      by_cases hdue : now < a.1 ∧ a.1 ≤ deadline
      · rw [dif_pos hdue]
        obtain ⟨e', hsteps', h''⟩ := ih (deadline - a.1) (by omega) h' H'
          (hnow''.trans_le (Nat.le_of_lt hlt)) hdue.2 rfl
        exact ⟨e', hreach.trans hsteps', h''⟩
      · rw [dif_neg hdue]
        exact hdone fun b hb => by
          have := hfirst b hb
          omega

/-- Whatever is done with a connection, or by it, can be done step by step. -/
theorem Plays.move (h : Plays target c d) (H : Sound target asks d) (m : Connection.Move) :
    ∃ e, ToldSteps target d e ∧ Plays target (c.move m) e := by
  have hcrew := h.hosted.hosts.crew
  cases m with
  | save message =>
    rw [Connection.move, h.view]
    obtain ⟨r, hsave⟩ | ⟨-, -, hsave⟩ := Session.requestSave_cases message d.view
    · rw [hsave]
      exact ⟨d, .refl, h.hosted.congr rfl rfl, rfl⟩
    · rw [hsave]
      have hstep : Step target d _ := .save hsave
      exact ⟨_, hstep.toldSteps rfl c.host.desk.surroundings, h.hosted.congr rfl rfl, rfl⟩
  | poll =>
    rw [Connection.move, h.view]
    exact ⟨_, h.setView .poll⟩
  | runLoop =>
    rw [Connection.move, h.view]
    exact ⟨_, h.setView .runLoop⟩
  | stopLoop =>
    rw [Connection.move, h.view]
    exact ⟨_, h.setView .stopLoop⟩
  | holdPushes => exact ⟨d, .refl, h.hosted.setCrew hcrew.holdPushes rfl rfl, h.view⟩
  | releasePush gate =>
    obtain ⟨gates, hdesk⟩ := Crew.releasePush_desk gate c.host
    refine ⟨d, .refl, h.hosted.setCrew (hcrew.releasePush gate) ?_ ?_, h.view⟩ <;>
      rw [Connection.move, hdesk]
  | update r =>
    refine ⟨d, .refl, h.hosted.setCrew ?_ rfl rfl, h.view⟩
    exact hcrew.setDesk rfl rfl
  | exchange =>
    obtain ⟨e, hsteps, h', -⟩ := h.exchange H
    exact ⟨e, hsteps, h'⟩
  | advance milliseconds => exact h.elapse H (Nat.le_refl _) (Nat.le_add_right ..)

/-- So can what happens around it. -/
theorem Plays.act (h : Plays target c d) (H : Sound target asks d) (a : Connection.Deed) :
    ∃ e, ToldSteps target d e ∧ Plays target (c.act a) e := by
  cases a with
  | move m => exact h.move H m
  | review answer | worker worker =>
    exact ⟨d, .refl, h.hosted.setCrew (h.hosted.hosts.crew.setDesk rfl rfl) rfl rfl, h.view⟩

theorem Plays.acts (h : Plays target c d) (H : Sound target asks d)
    (deeds : List Connection.Deed) :
    ∃ e, ToldSteps target d e ∧ Plays target (deeds.foldl Connection.act c) e := by
  induction deeds generalizing c d asks with
  | nil => exact ⟨d, .refl, h⟩
  | cons a deeds ih =>
    obtain ⟨e, hsteps, h'⟩ := h.act H a
    obtain ⟨asks', H'⟩ := H.steps hsteps.steps
    obtain ⟨e', hsteps', h''⟩ := ih h' H'
    exact ⟨e', hsteps.trans hsteps', h''⟩

theorem plays_opened (target : String) (repository : MemoryRepository)
    (review : Except ReviewFailure (Option String)) (worker : Option Supervisor)
    (settings : ViewSettings) :
    Plays target (Connection.opened target repository review worker settings)
      (opened settings) where
  hosted := {
    hosts := ⟨rfl, ⟨rfl, rfl, nofun, nofun, nofun, List.nodup_nil⟩, rfl⟩
    queue := ⟨rfl, rfl, rfl, rfl, nofun⟩
    link := rfl }
  view := rfl

/-- Every run of a connection is one of a dialogue. -/
theorem exists_reachable (target : String) (repository : MemoryRepository)
    (review : Except ReviewFailure (Option String)) (worker : Option Supervisor)
    (settings : ViewSettings) (moves : List Connection.Move) :
    ∃ d, Reachable target settings d ∧
      Plays target ((Connection.opened target repository review worker settings).run moves) d := by
  obtain ⟨d, hsteps, h⟩ := (plays_opened target repository review worker settings).acts
    (sound_opened settings) (moves.map .move)
  rw [List.foldl_map] at h
  exact ⟨d, hsteps.steps, h⟩

end Dialogue

/-- Every run of a connection, whatever happens around its host, is one of a scene. -/
theorem Scene.exists_reachable (target : String) (repository : MemoryRepository)
    (review : Except ReviewFailure (Option String)) (worker : Option Supervisor)
    (settings : ViewSettings) (deeds : List Connection.Deed) :
    let c := deeds.foldl Connection.act
      (Connection.opened target repository review worker settings)
    ∃ x, Scene.Reachable target settings x ∧ Dialogue.Plays target c x.dialogue ∧
      x.around = c.host.desk.surroundings := by
  intro c
  obtain ⟨d, hsteps, h⟩ := (Dialogue.plays_opened target repository review worker settings).acts
    (Dialogue.sound_opened settings) deeds
  exact ⟨⟨d, c.host.desk.surroundings⟩, ⟨_, exists_steps hsteps c.host.desk.surroundings _⟩, h, rfl⟩

/-- Where no frame is left and all jobs have ended, nothing is under way. -/
theorem Scene.settled_of_plays {target : String} {c : Connection} {x : Scene}
    (h : Dialogue.Plays target c x.dialogue) (hview : c.view.bus.outbound = some [])
    (hhost : c.host.desk.host.bus.outbound = some [])
    (hended : c.host.ended.map (·.1) = List.range c.host.started) : x.Settled where
  asks := h.view ▸ hview
  answers := by
    have hframes := Option.some.inj (hhost.symm.trans h.hosted.queue.outbound)
    exact List.map_eq_nil_iff.1 (List.map_eq_nil_iff.1 hframes.symm)
  jobs p hp := by
    have hcrew := h.hosted.hosts.crew
    obtain ⟨i, hlt, rfl⟩ := List.getElem_of_mem hp
    obtain ⟨e, he, rfl⟩ := List.mem_map.1 (hended ▸ List.mem_range.2 (hcrew.started ▸ hlt))
    have hdone := hcrew.ended e he
    rw [List.getElem?_eq_getElem hlt] at hdone
    exact Option.some.inj hdone ▸ .ended e.2

end PublishDesk
