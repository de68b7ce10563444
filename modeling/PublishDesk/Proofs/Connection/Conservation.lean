import Mathlib.Data.List.Sort
import PublishDesk.Proofs.Connection.Sides

/-!
# No save is lost, made twice or changed

What is noted during a run of a connection balances (`Connection.Conserved`): every request that the
view accepts reaches the host, in order and with its message; the view acts on one result for each
save that has ended; and what has been committed are the messages of those requests that got past
the commit. This is so in every run (`Connection.run_conserved`), since each move keeps the
invariant `Connection.Sound`.
-/

namespace PublishDesk

open Job

namespace Connection

/-- Nothing is under way but jobs that wait. -/
def IsSettled (c : Connection) : Prop :=
  c.view.bus.outbound = some [] ∧ c.host.ready = [] ∧ c.host.desk.host.bus.outbound = some []

/-- No frame has been rejected. -/
def Undisturbed (events : List Event) : Prop :=
  ∀ e, Event.taken (.error e) ∉ events ∧ Event.shown (.error e) ∉ events

/-- The events of a run add up, and agree with the commits in the repository. -/
structure Conserved (target : String) (earlier : List (String × String)) (events : List Event)
    (c : Connection) : Prop where
  undisturbed : Undisturbed events
  /-- The host starts a job of its own for each accepted request, in order. -/
  numbered : (started events).Pairwise (·.1 < ·.1)
  begun : (started events).map (·.2) <+: accepted events
  /-- When nothing is under way, all accepted requests have been started, and each of them has been
  reported or its job has not ended. -/
  balanced : c.IsSettled → (started events).map (·.2) = accepted events ∧
    (accepted events).length =
      results events + c.host.tasks.countP fun t => t.number ∈ (started events).map (·.1)
  commits : c.host.desk.repository.commits =
    earlier ++ ((started events).filter (isCommitted events)).map (target, ·.2)
  settled_exchange : c.exchange.IsSettled
  settled_advance : ∀ milliseconds, (c.advance milliseconds).IsSettled

/-! ## Readings of events -/

section

variable {events events' : List Event}

theorem Undisturbed.append (h : Undisturbed events) (h' : Undisturbed events') :
    Undisturbed (events ++ events') := fun e =>
  ⟨fun he => (List.mem_append.1 he).elim (h e).1 (h' e).1,
    fun he => (List.mem_append.1 he).elim (h e).2 (h' e).2⟩

theorem read_taking (h : HostCrew.Taking events) : accepted events = [] ∧ log events = [] ∧
    results events = 0 ∧ Undisturbed events := by
  refine ⟨List.filterMap_eq_nil_iff.2 ?_, List.filterMap_eq_nil_iff.2 ?_,
    List.countP_eq_zero.2 ?_, fun e => ⟨fun he => ?_, fun he => ?_⟩⟩
  · intro e he
    obtain ⟨k, rfl⟩ | ⟨n, m, rfl⟩ := h e he <;> rfl
  · intro e he
    obtain ⟨k, rfl⟩ | ⟨n, m, rfl⟩ := h e he <;> rfl
  · intro e he
    obtain ⟨k, rfl⟩ | ⟨n, m, rfl⟩ := h e he <;> nofun
  · obtain ⟨k, hk⟩ | ⟨n, m, hm⟩ := h _ he <;> injections
  · obtain ⟨k, hk⟩ | ⟨n, m, hm⟩ := h _ he <;> injections

theorem read_made (steps : List (Nat × Made)) :
    let events : List Event := steps.map fun e => .made e.1 e.2
    accepted events = [] ∧ started events = [] ∧ log events = steps ∧ results events = 0 ∧
      Undisturbed events := by
  induction steps with
  | nil => exact ⟨rfl, rfl, rfl, rfl, fun e => ⟨nofun, nofun⟩⟩
  | cons e steps ih =>
    obtain ⟨haccepted, hstarted, hlog, hresults, hundisturbed⟩ := ih
    refine ⟨haccepted, hstarted, congrArg (e :: ·) hlog, hresults, fun err => ⟨?_, ?_⟩⟩
    · exact fun h => (hundisturbed err).1 ((List.mem_cons.1 h).resolve_left nofun)
    · exact fun h => (hundisturbed err).2 ((List.mem_cons.1 h).resolve_left nofun)

theorem read_applied (answers : List Message) :
    let events : List Event := answers.flatMap fun m => [.shown (.ok m.kind), .applied m]
    accepted events = [] ∧ started events = [] ∧ log events = [] ∧
      results events = reports answers ∧ Undisturbed events := by
  induction answers with
  | nil => exact ⟨rfl, rfl, rfl, rfl, fun e => ⟨nofun, nofun⟩⟩
  | cons m answers ih =>
    obtain ⟨haccepted, hstarted, hlog, hresults, hundisturbed⟩ := ih
    have hfirst : Undisturbed [.shown (.ok m.kind), .applied m] := fun e => by simp
    refine ⟨haccepted, hstarted, hlog, ?_, hfirst.append hundisturbed⟩
    rw [List.flatMap_cons, results_append, hresults]
    exact (reports_append [m] answers).symm

end

/-! ## The invariant -/

/-- A connection has come about by the events, from a repository with the commits `earlier` on. What
the view asks for and what the host answers is still to be handed over. -/
structure Sound (target : String) (earlier : List (String × String)) (events : List Event)
    (asks answers : List Message) (c : Connection) : Prop where
  host : c.host.Stands answers
  view : c.view.Stands asks
  serves : ∃ l, HostCrew.Serves target earlier (started events) (log events) l c.host
  undisturbed : Undisturbed events
  accepted : accepted events = (started events).map (·.2) ++ asks.filterMap Message.request?
  results : reports (posts ((log events).map (·.2))) = results events + reports answers

variable {target : String} {earlier : List (String × String)} {events : List Event}
  {asks asks' answers : List Message} {c : Connection}

theorem Sound.setView (H : Sound target earlier events asks answers c) {view : Session}
    (hview : view.Stands (asks ++ asks')) (hasks' : asks'.filterMap Message.request? = []) :
    Sound target earlier events (asks ++ asks') answers { c with view := view } :=
  { H with
    view := hview
    accepted := by rw [List.filterMap_append, hasks', List.append_nil, H.accepted] }

/-- The host takes all frames of the view. -/
theorem Sound.taken (H : Sound target earlier events asks answers c) :
    Sound target earlier (events ++ HostCrew.dispatchAllEvents c.view.drain.1 c.host) [] answers
      ⟨(HostCrew.dispatchAll c.view.drain.1 c.host).2, c.view.drain.2⟩ := by
  obtain ⟨hframes, hview⟩ := H.view.drain
  obtain ⟨l, hserves⟩ := H.serves
  obtain ⟨htaking, hstarted, hhost, hserves'⟩ := hserves.dispatchAll H.host H.view.asks
  rw [hframes]
  obtain ⟨haccepted, hlog, hresults, hundisturbed⟩ := read_taking htaking
  constructor
  case host => exact hhost
  case view => exact hview
  case serves =>
    rw [started_append, log_append, hlog, List.append_nil]
    exact hserves'
  case undisturbed => exact H.undisturbed.append hundisturbed
  case accepted =>
    rw [accepted_append, haccepted, H.accepted, started_append, List.map_append, hstarted]
    rfl
  case results => rw [log_append, hlog, results_append, hresults, List.append_nil, H.results]; rfl

/-- The jobs of the host run until none is ready. -/
theorem Sound.settled (H : Sound target earlier events asks answers c) :
    Sound target earlier (events ++ c.host.settleSteps.map fun e => .made e.1 e.2) asks
      (answers ++ posts (c.host.settleSteps.map (·.2))) ⟨c.host.settle, c.view⟩ ∧
    c.host.settle.ready = [] := by
  obtain ⟨l, hserves⟩ := H.serves
  obtain ⟨l', hserves', hreflects, hanswers, hready⟩ := hserves.settle
  obtain ⟨haccepted, hstarted, hlog, hresults, hundisturbed⟩ := read_made c.host.settleSteps
  refine ⟨?_, hready⟩
  constructor
  case host => exact H.host.reflects hreflects hanswers
  case view => exact H.view
  case serves =>
    rw [started_append, hstarted, log_append, hlog, List.append_nil]
    exact ⟨l', hserves'⟩
  case undisturbed => exact H.undisturbed.append hundisturbed
  case accepted =>
    rw [accepted_append, haccepted, started_append, hstarted, List.append_nil, List.append_nil,
      H.accepted]
  case results =>
    rw [log_append, hlog, results_append, hresults, List.map_append, posts_append, reports_append,
      reports_append, H.results, Nat.add_zero, Nat.add_assoc]

/-- The view acts on all answers of the host. -/
theorem Sound.shown (H : Sound target earlier events asks answers c) :
    let frames := (HostCrew.drain c.host).1
    Sound target earlier (events ++ c.view.dispatchAllEvents frames) asks []
      ⟨(HostCrew.drain c.host).2, c.view.dispatchAll frames⟩ ∧
    (c.view.Ahead → (c.view.dispatchAll frames).Ahead) ∧
    (c.view.dispatchAll frames).now = c.view.now := by
  obtain ⟨hframes, hhost⟩ := H.host.drain
  obtain ⟨hview, hahead, hnow, hevents⟩ := H.view.dispatchAll H.host.answers
  obtain ⟨haccepted, hstarted, hlog, hresults, hundisturbed⟩ := read_applied answers
  obtain ⟨l, hserves⟩ := H.serves
  rw [hframes]
  refine ⟨?_, hahead, hnow⟩
  rw [hevents]
  constructor
  case host => exact hhost
  case view => exact hview
  case serves =>
    rw [started_append, hstarted, log_append, hlog, List.append_nil, List.append_nil]
    exact ⟨l, hserves.setDesk rfl (fun _ hn => hn) rfl rfl⟩
  case undisturbed => exact H.undisturbed.append hundisturbed
  case accepted =>
    rw [accepted_append, haccepted, started_append, hstarted, List.append_nil, List.append_nil,
      H.accepted]
  case results =>
    rw [log_append, hlog, results_append, hresults, List.append_nil, H.results]
    rfl

theorem Sound.isSettled (H : Sound target earlier events [] [] c) (hready : c.host.ready = []) :
    c.IsSettled :=
  ⟨H.view.outbound, hready, H.host.outbound⟩

/-! ## Moves -/

/-- After an exchange, nothing is under way. -/
theorem Sound.exchange (H : Sound target earlier events asks answers c) (hahead : c.view.Ahead) :
    Sound target earlier (events ++ c.exchangeEvents) [] [] c.exchange ∧
      c.exchange.IsSettled ∧ c.exchange.view.Rested ∧ c.exchange.view.now = c.view.now := by
  have Htaken := H.taken
  obtain ⟨Hsettled, hready⟩ := Htaken.settled
  obtain ⟨Hshown, hahead', hnow⟩ := Hsettled.shown
  obtain ⟨asks', hview, hasks', hnone, hrested, hnow'⟩ := Hshown.view.ringDue
  -- What is due now clears an indicator; a poll would have to be handed over in its turn.
  obtain rfl := hnone (hahead' hahead)
  have Hexchange := Hshown.setView hview hasks'
  rw [exchangeEvents, ← List.append_assoc, ← List.append_assoc]
  exact ⟨Hexchange, Hexchange.isSettled hready, hrested, hnow'.trans hnow⟩

/-- Nothing is under way whenever time has passed: each time at which the view has something to do
ends with an exchange. -/
theorem Sound.elapse (H : Sound target earlier events asks answers c) (deadline now : Nat) :
    Sound target earlier (events ++ c.elapseEvents deadline now) [] [] (c.elapse deadline now) ∧
      (c.elapse deadline now).IsSettled ∧ (c.elapse deadline now).view.Ahead := by
  -- After an exchange nothing is due, so the next round is later and less time is left.
  induction hn : deadline - now using Nat.strong_induction_on
    generalizing c events asks answers now with
  | _ n ih =>
    have hview : Session.Stands asks { c.view with now := now } := H.view.congr rfl rfl (.refl _)
    obtain ⟨asks', hring, hasks', -, hrested, hnow⟩ := hview.ringDue
    obtain ⟨H', hsettled, hrested', hnow'⟩ := (H.setView hring hasks').exchange hrested.ahead
    rw [Connection.elapse, elapseEvents]
    generalize hc :
      ({ c with view := Session.ringDue { c.view with now := now } } : Connection) = c' at *
    have hdone (hlater : ∀ a ∈ c'.exchange.view.alarms, deadline < a.1) :
        let d : Connection :=
          { c'.exchange with view := { c'.exchange.view with now := deadline } }
        Sound target earlier (events ++ (c'.exchangeEvents ++ [])) [] [] d ∧ d.IsSettled ∧
          d.view.Ahead := by
      rw [List.append_nil]
      have hview' : Session.Stands ([] ++ []) { c'.exchange.view with now := deadline } :=
        H'.view.congr rfl rfl (.refl _)
      exact ⟨H'.setView hview' rfl, hsettled, fun a ha _ _ => hlater a ha⟩
    dsimp only
    cases hnext : c'.exchange.view.nextDue? with
    | none =>
      have halarms := List.map_eq_nil_iff.1 (List.min?_eq_none_iff.1 hnext)
      exact hdone (by simp [halarms])
    | some next =>
      obtain ⟨⟨a, ha, rfl⟩, hle⟩ := Session.of_nextDue?_eq_some hnext
      dsimp only
      by_cases hlt : now < a.1 ∧ a.1 ≤ deadline
      · simp only [dif_pos hlt]
        rw [← List.append_assoc]
        exact ih (deadline - a.1) (by omega) H' a.1 rfl
      · simp only [dif_neg hlt]
        have hrest := hrested' a ha
        rw [hnow', ← hc] at hrest
        have hlt' : now < a.1 := hnow.symm.trans_lt hrest
        exact hdone fun b hb => by
          have := hle b hb
          omega

/-- A request that the view accepts is noted, and waits for the host. -/
theorem Sound.save (H : Sound target earlier events asks answers c) {message : String}
    {view : Session} (h : c.view.requestSave message = (.ok (), view)) :
    Sound target earlier (events ++ [.accepted message]) (asks ++ [.requestSave message]) answers
      { c with view := view } := by
  constructor
  case host => exact H.host
  case view => exact (H.view.requestSave h).1
  case serves =>
    rw [started_append, log_append]
    simpa [started, log] using H.serves
  case undisturbed => exact H.undisturbed.append fun e => by simp
  case accepted =>
    rw [accepted_append, H.accepted, started_append, List.filterMap_append]
    simp [Connection.accepted, started, Message.request?]
  case results =>
    rw [log_append, results_append]
    simpa [log, Connection.results] using H.results

theorem Sound.setHost (H : Sound target earlier events asks answers c) {host : HostCrew}
    (hdesk : host.desk.host = c.host.desk.host)
    (hserves : ∀ l, HostCrew.Serves target earlier (started events) (log events) l c.host →
      HostCrew.Serves target earlier (started events) (log events) l host) :
    Sound target earlier events asks answers { c with host := host } :=
  { H with
    host := H.host.congr (by rw [hdesk]) (by rw [hdesk])
    serves := H.serves.imp hserves }

theorem Sound.move (H : Sound target earlier events asks answers c) (hahead : c.view.Ahead)
    (m : Move) : ∃ asks' answers',
      Sound target earlier (events ++ c.moveEvents m) asks' answers' (c.move m) ∧
        (c.move m).view.Ahead := by
  have hquiet {asks' answers' : List Message} {c' : Connection}
      (h : Sound target earlier events asks' answers' c') :
      Sound target earlier (events ++ []) asks' answers' c' := (List.append_nil events).symm ▸ h
  cases m with
  | save message =>
    rw [moveEvents, Connection.move]
    obtain ⟨r, h⟩ | ⟨-, -, h⟩ := Session.requestSave_cases message c.view
    · rw [h]
      exact ⟨_, _, hquiet H, hahead⟩
    · rw [h]
      exact ⟨_, _, H.save h, (H.view.requestSave h).2 hahead⟩
  | poll => exact ⟨_, _, hquiet (H.setView H.view.poll rfl), hahead⟩
  | runLoop =>
    obtain ⟨asks', hview, hasks', hahead'⟩ := H.view.runLoop
    exact ⟨_, _, hquiet (H.setView hview hasks'), hahead' hahead⟩
  | stopLoop =>
    have hview := (List.append_nil asks).symm ▸ H.view.stopLoop
    exact ⟨_, _, hquiet (H.setView hview rfl), hahead.stopLoop⟩
  | holdPushes => exact ⟨_, _, hquiet (H.setHost rfl fun _ hl => hl.holdPushes), hahead⟩
  | releasePush gate =>
    obtain ⟨gates, hdesk⟩ := Crew.releasePush_desk gate c.host
    refine ⟨_, _, hquiet (H.setHost ?_ fun _ hl => hl.releasePush gate), hahead⟩
    rw [hdesk]
  | update r =>
    refine ⟨_, _, hquiet (H.setHost rfl fun _ hl => ?_), hahead⟩
    exact hl.setDesk rfl (fun _ hn => hn) rfl rfl
  | exchange =>
    obtain ⟨H', -, hrested, -⟩ := H.exchange hahead
    exact ⟨_, _, H', hrested.ahead⟩
  | advance milliseconds =>
    obtain ⟨H', -, hahead'⟩ := H.elapse (c.view.now + milliseconds) c.view.now
    exact ⟨_, _, H', hahead'⟩

theorem Sound.run (H : Sound target earlier events asks answers c) (hahead : c.view.Ahead)
    (moves : List Move) : ∃ asks' answers',
      Sound target earlier (events ++ c.events moves) asks' answers' (c.run moves) ∧
        (c.run moves).view.Ahead := by
  induction moves generalizing c events asks answers with
  | nil => exact ⟨asks, answers, (List.append_nil events).symm ▸ H, hahead⟩
  | cons m moves ih =>
    obtain ⟨asks', answers', H', hahead'⟩ := H.move hahead m
    rw [Connection.events, ← List.append_assoc]
    exact ih H' hahead'

theorem sound_opened (target : String) (repository : MemoryRepository)
    (review : Except ReviewFailure (Option String)) (worker : Option Supervisor)
    (settings : ViewSettings) :
    Sound target repository.commits [] [] [] (opened target repository review worker settings) := by
  constructor
  case host => exact ⟨rfl, rfl, rfl, rfl, nofun⟩
  case view => exact ⟨rfl, rfl, rfl, nofun, nofun⟩
  case serves =>
    let d := (opened target repository review worker settings).host.desk
    exact ⟨{}, HostCrew.Serves.empty (d := d) rfl rfl rfl⟩
  case undisturbed => exact fun e => ⟨nofun, nofun⟩
  case accepted => rfl
  case results => rfl

/-! ## Runs -/

/-- What has been committed are the requests whose jobs have got past the commit. -/
theorem commitsIn_log {l : Line} {host : HostCrew}
    (H : HostCrew.Serves target earlier (started events) (log events) l host) :
    commitsIn (log events) = (started events).filter (isCommitted events) := by
  have hnodup : ((started events).map (·.1)).Nodup :=
    List.pairwise_map.2 (H.numbered.imp Nat.ne_of_lt)
  have hmem (e : Nat × String) :
      e ∈ commitsIn (log events) ↔ e ∈ (started events).filter (isCommitted events) := by
    rw [List.mem_filter, isCommitted, List.any_eq_true]
    constructor
    · intro he
      refine ⟨H.requested e he, ?_⟩
      obtain ⟨⟨i, s⟩, hs, hcommitted⟩ := List.mem_filterMap.1 he
      obtain ⟨m, hm, rfl⟩ := Option.map_eq_some_iff.1 hcommitted
      exact ⟨(i, s), hs, by simp [hm]⟩
    · rintro ⟨hstarted, ⟨i, s⟩, hs, hcommitted⟩
      rw [Bool.and_eq_true, beq_iff_eq] at hcommitted
      obtain ⟨m, hm⟩ := Option.isSome_iff_exists.1 hcommitted.2
      have hcommit : (i, m) ∈ commitsIn (log events) :=
        List.mem_filterMap.2 ⟨(i, s), hs, by rw [hm]; rfl⟩
      rwa [← List.inj_on_of_nodup_map hnodup (H.requested _ hcommit) hstarted hcommitted.1]
  -- Both lists are ordered by the numbers, so they are equal if they have the same members.
  have hirrefl : Std.Irrefl fun e e' : Nat × String => e.1 < e'.1 := ⟨fun e => Nat.lt_irrefl e.1⟩
  have hantisymm : Std.Antisymm fun e e' : Nat × String => e.1 < e'.1 :=
    ⟨fun e e' h h' => absurd h' (Nat.lt_asymm h)⟩
  exact H.ordered.eq_of_mem_iff (H.numbered.filter _) hmem

/-- In every run of a connection, no frame is rejected; all accepted requests are accounted for when
nothing is under way; and the new commits are, in the order of the requests, on the target branch
and with their messages, the requests whose jobs have got past the commit. -/
theorem run_conserved (target : String) (repository : MemoryRepository)
    (review : Except ReviewFailure (Option String)) (worker : Option Supervisor)
    (settings : ViewSettings) (moves : List Move) :
    let c := opened target repository review worker settings
    Conserved target repository.commits (c.events moves) (c.run moves) := by
  intro c
  obtain ⟨asks, answers, H, hahead⟩ :=
    (sound_opened target repository review worker settings).run nofun moves
  rw [List.nil_append] at H
  obtain ⟨l, hserves⟩ := H.serves
  constructor
  case undisturbed => exact H.undisturbed
  case numbered => exact hserves.numbered
  case begun => exact H.accepted ▸ List.prefix_append ..
  case balanced =>
    rintro ⟨hasks, -, hanswers⟩
    obtain rfl := List.map_eq_nil_iff.1 (Option.some.inj (H.view.outbound.symm.trans hasks))
    obtain rfl := List.map_eq_nil_iff.1 (Option.some.inj (H.host.outbound.symm.trans hanswers))
    have haccepted := H.accepted.trans (List.append_nil _)
    refine ⟨haccepted.symm, ?_⟩
    have hreported := hserves.reported
    rw [H.results, ← hserves.line.numbers, List.countP_map] at hreported
    rw [haccepted, List.length_map]
    exact hreported
  case commits =>
    rw [hserves.commits, commitsIn_log hserves]
  case settled_exchange => exact (H.exchange hahead).2.1
  case settled_advance => exact fun milliseconds => (H.elapse _ _).2.1

end Connection
end PublishDesk
