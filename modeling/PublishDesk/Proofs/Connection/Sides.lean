import PublishDesk.Proofs.Connection.Moves
import PublishDesk.Proofs.View.SaveRequests

/-!
# The two sides of a connection

What each side does with the frames of the other one: every frame is taken, the host starts a job
for each save request (`HostCrew.Serves.dispatchAll`), and the view posts nothing in answer
(`Session.Stands.dispatchAll`). A view asks for the status when a poll is due, and each poll is due
again only later (`Session.Stands.ringDue`).
-/

namespace PublishDesk

open Job
open Connection

/-- The commit message of a save request. -/
def Message.request? : Message → Option String
  | .requestSave m => some m
  | _ => none

/-! ## The view -/

namespace Session

/-- A view listens, and has posted some messages that ask for something. Its polls are repeated. -/
structure Stands (asks : List Message) (s : Session) : Prop where
  pong : s.bus.handler .pong = some ()
  saveResult : s.bus.handler .saveResult = some ()
  outbound : s.bus.outbound = some (asks.map (·.frame))
  asks : ∀ m ∈ asks, m.isAnswer = false
  repeated : ∀ a ∈ s.alarms, ∀ n, a.2 = .poll n → 0 < s.settings.pollInterval

/-- No poll is due. -/
def Ahead (s : Session) : Prop := ∀ a ∈ s.alarms, ∀ n, a.2 = .poll n → s.now < a.1

variable {s s' : Session} {asks : List Message} {m : Message}

/-- What is shown and what time it is does not matter. -/
theorem Stands.congr (H : Stands asks s) (hbus : s'.bus = s.bus)
    (hsettings : s'.settings = s.settings) (halarms : s'.alarms ⊆ s.alarms) : Stands asks s' where
  pong := hbus ▸ H.pong
  saveResult := hbus ▸ H.saveResult
  outbound := hbus ▸ H.outbound
  asks := H.asks
  repeated a ha := hsettings ▸ H.repeated a (halarms ha)

theorem Stands.publish (H : Stands asks s) (state : ViewState) : Stands asks (s.publish state) :=
  H.congr rfl rfl (.refl _)

theorem Stands.post (H : Stands asks s) (hm : m.isAnswer = false) :
    Stands (asks ++ [m]) (s.post m) where
  pong := H.pong
  saveResult := H.saveResult
  outbound := by
    rw [List.map_append]
    exact Bus.outbound_postAll H.outbound [m]
  asks n hn := by
    obtain hn | hn := List.mem_append.1 hn
    · exact H.asks n hn
    · exact List.mem_singleton.1 hn ▸ hm
  repeated := H.repeated

theorem Stands.arm (H : Stands asks s) {a : Alarm}
    (ha : ∀ n, a = .poll n → 0 < s.settings.pollInterval) (delay : Nat) :
    Stands asks (s.arm delay a) where
  pong := H.pong
  saveResult := H.saveResult
  outbound := H.outbound
  asks := H.asks
  repeated b hb n hn := by
    obtain hb | hb := List.mem_append.1 hb
    · exact H.repeated b hb n hn
    · obtain rfl := List.mem_singleton.1 hb
      exact ha n hn

theorem Ahead.arm (h : s.Ahead) {a : Alarm} {delay : Nat} (ha : ∀ n, a = .poll n → 0 < delay) :
    (s.arm delay a).Ahead := by
  intro b hb n hn
  obtain hb | hb := List.mem_append.1 hb
  · exact h b hb n hn
  · obtain rfl := List.mem_singleton.1 hb
    exact Nat.lt_add_of_pos_right (ha n hn)

/-! ### Frames -/

theorem dispatch_frame (H : Stands asks s) (hm : m.isAnswer) :
    s.dispatch m.frame = (.ok m.kind, s.handle m) ∧
      s.dispatchEvents m.frame = [.shown (.ok m.kind), .applied m] := by
  have hhandler : s.bus.handler m.kind = some () := by
    cases m with
    | pong => exact H.pong
    | saveResult => exact H.saveResult
    | ping | requestSave => cases hm
  have hroute := Bus.route_frame hhandler
  have hdispatch : s.dispatch m.frame = (.ok m.kind, s.handle m) := by
    rw [dispatch, hroute]
    exact congrArg _ (if_pos rfl)
  refine ⟨hdispatch, ?_⟩
  rw [dispatchEvents, hdispatch, hroute]
  exact congrArg _ (if_pos rfl)

theorem Stands.handle (H : Stands asks s) (m : Message) : Stands asks (s.handle m) := by
  cases m with
  | pong status =>
    rw [Session.handle]
    split
    · exact H
    · exact H.publish _
  | saveResult ok => exact (H.publish _).arm (by simp) _
  | ping | requestSave => exact H

theorem Ahead.handle (h : s.Ahead) (m : Message) : (s.handle m).Ahead := by
  cases m with
  | pong status =>
    rw [Session.handle]
    split <;> exact h
  | saveResult ok => exact Ahead.arm (s := s.publish (s.state.finishSave ok)) h (by simp)
  | ping | requestSave => exact h

theorem now_handle (m : Message) (s : Session) : (s.handle m).now = s.now := by
  cases m with
  | pong status =>
    rw [Session.handle]
    split <;> rfl
  | ping | requestSave | saveResult => rfl

/-- Every answer is taken and acted on, and the view posts nothing. -/
theorem Stands.dispatchAll (H : Stands asks s) {answers : List Message}
    (hanswers : ∀ m ∈ answers, m.isAnswer) :
    Stands asks (s.dispatchAll (answers.map (·.frame))) ∧
      (s.Ahead → (s.dispatchAll (answers.map (·.frame))).Ahead) ∧
      (s.dispatchAll (answers.map (·.frame))).now = s.now ∧
      s.dispatchAllEvents (answers.map (·.frame)) =
        answers.flatMap fun m => [.shown (.ok m.kind), .applied m] := by
  induction answers generalizing s with
  | nil => exact ⟨H, id, rfl, rfl⟩
  | cons m answers ih =>
    have hm := hanswers m (.head _)
    obtain ⟨hdispatch, hfirst⟩ := dispatch_frame H hm
    obtain ⟨H', hahead, hnow, hevents⟩ := ih (H.handle m) fun n hn => hanswers n (.tail _ hn)
    have hnext : (s.dispatch m.frame).2 = s.handle m := congrArg Prod.snd hdispatch
    rw [List.map_cons, Session.dispatchAll, List.foldl_cons, hnext, dispatchAllEvents, hnext,
      hfirst, hevents]
    exact ⟨H', fun h => hahead (h.handle m), hnow.trans (now_handle m s), rfl⟩

theorem Stands.drain (H : Stands asks s) :
    s.drain.1 = asks.map (·.frame) ∧ Stands [] s.drain.2 := by
  refine ⟨?_, H.pong, H.saveResult, ?_, nofun, H.repeated⟩
  · rw [Session.drain, Bus.drain, H.outbound]
    rfl
  · rw [Session.drain, Bus.drain, H.outbound]
    rfl

/-! ### Time -/

/-- Nothing is due. -/
def Rested (s : Session) : Prop := ∀ a ∈ s.alarms, s.now < a.1

theorem Rested.ahead (h : s.Rested) : s.Ahead := fun a ha _ _ => h a ha

theorem Stands.ring (H : Stands asks s) {a : Alarm}
    (ha : ∀ n, a = .poll n → 0 < s.settings.pollInterval) :
    ∃ asks', Stands (asks ++ asks') (s.ring a) ∧ asks'.filterMap Message.request? = [] ∧
      ((∀ n, a ≠ .poll n) → asks' = []) ∧ (s.Rested → (s.ring a).Rested) ∧
      (s.ring a).now = s.now ∧ (s.ring a).settings = s.settings := by
  cases a with
  | clear g =>
    refine ⟨[], ?_⟩
    rw [Session.ring, List.append_nil]
    split
    · exact ⟨H.publish _, rfl, fun _ => rfl, id, rfl, rfl⟩
    · exact ⟨H, rfl, fun _ => rfl, id, rfl, rfl⟩
  | poll n =>
    have hinterval := ha n rfl
    refine ⟨[.ping], (H.post rfl).arm (fun _ _ => hinterval) _, rfl, fun hne => absurd rfl (hne n),
      fun h b hb => ?_, rfl, rfl⟩
    obtain hb | hb := List.mem_append.1 hb
    · exact h b hb
    · obtain rfl := List.mem_singleton.1 hb
      exact Nat.lt_add_of_pos_right hinterval

theorem Stands.ringAll (H : Stands asks s) (hs : s.Rested) {actions : List Alarm}
    (hactions : ∀ a ∈ actions, ∀ n, a = .poll n → 0 < s.settings.pollInterval) :
    ∃ asks', Stands (asks ++ asks') (actions.foldl Session.ring s) ∧
      asks'.filterMap Message.request? = [] ∧
      ((∀ a ∈ actions, ∀ n, a ≠ .poll n) → asks' = []) ∧ (actions.foldl Session.ring s).Rested ∧
      (actions.foldl Session.ring s).now = s.now := by
  induction actions generalizing s asks with
  | nil => exact ⟨[], (List.append_nil asks).symm ▸ H, rfl, fun _ => rfl, hs, rfl⟩
  | cons a actions ih =>
    obtain ⟨asks₁, H₁, hasks₁, hnone₁, hrested, hnow, hsettings⟩ := H.ring (hactions a (.head _))
    obtain ⟨asks₂, H₂, hasks₂, hnone₂, hrested₂, hnow₂⟩ := ih H₁ (hrested hs) fun b hb n hn =>
      hsettings ▸ hactions b (.tail _ hb) n hn
    refine ⟨asks₁ ++ asks₂, ?_, ?_, fun h => ?_, hrested₂, hnow₂.trans hnow⟩
    · rw [← List.append_assoc]
      exact H₂
    · rw [List.filterMap_append, hasks₁, hasks₂, List.append_nil]
    · rw [hnone₁ (h a (.head _)), hnone₂ fun b hb => h b (.tail _ hb), List.append_nil]

/-- What is due is done, and it asks for no saves. Without a poll that is due, it asks for
nothing. -/
theorem Stands.ringDue (H : Stands asks s) :
    ∃ asks', Stands (asks ++ asks') s.ringDue ∧ asks'.filterMap Message.request? = [] ∧
      (s.Ahead → asks' = []) ∧ s.ringDue.Rested ∧ s.ringDue.now = s.now := by
  have hlater : Stands asks { s with alarms := s.alarms.filter (s.now < ·.1) } :=
    H.congr rfl rfl (List.filter_subset_self _)
  have hrested : Rested { s with alarms := s.alarms.filter (s.now < ·.1) } := fun a ha => by
    simpa using List.of_mem_filter ha
  have hdue (a : Alarm) (ha : a ∈ (s.alarms.filter (·.1 ≤ s.now)).map (·.2)) :
      ∃ time ≤ s.now, (time, a) ∈ s.alarms := by
    obtain ⟨b, hb, rfl⟩ := List.mem_map.1 ha
    obtain ⟨hmem, hle⟩ := List.mem_filter.1 hb
    exact ⟨b.1, by simpa using hle, hmem⟩
  have hactions (a : Alarm) (ha : a ∈ (s.alarms.filter (·.1 ≤ s.now)).map (·.2)) (n : Nat)
      (hn : a = .poll n) : 0 < s.settings.pollInterval := by
    obtain ⟨time, -, hmem⟩ := hdue a ha
    exact H.repeated _ hmem n hn
  obtain ⟨asks', H', hasks, hnone, hrested', hnow⟩ := hlater.ringAll hrested hactions
  refine ⟨asks', H', hasks, fun hahead => hnone fun a ha n hn => ?_, hrested', hnow⟩
  obtain ⟨time, hle, hmem⟩ := hdue a ha
  exact absurd (hahead _ hmem n hn) (Nat.not_lt.2 hle)

theorem of_nextDue?_eq_some {next : Nat} (h : s.nextDue? = some next) :
    (∃ a ∈ s.alarms, a.1 = next) ∧ ∀ a ∈ s.alarms, next ≤ a.1 := by
  obtain ⟨hmem, hle⟩ := List.min?_eq_some_iff.1 h
  exact ⟨List.mem_map.1 hmem, fun a ha => hle _ (List.mem_map_of_mem ha)⟩

/-! ### What is done with a view -/

theorem Stands.poll (H : Stands asks s) : Stands (asks ++ [.ping]) s.poll := H.post rfl

theorem Stands.runLoop (H : Stands asks s) :
    ∃ asks', Stands (asks ++ asks') s.runLoop ∧ asks'.filterMap Message.request? = [] ∧
      (s.Ahead → s.runLoop.Ahead) := by
  have hloop : Stands asks { s with loops := s.loops + 1, stopped := false } :=
    H.congr rfl rfl (.refl _)
  rw [Session.runLoop]
  split
  · exact ⟨[], (List.append_nil asks).symm ▸ hloop, rfl, id⟩
  · next hinterval =>
    have hpos : 0 < s.settings.pollInterval := Nat.pos_of_ne_zero hinterval
    refine ⟨[.ping], hloop.poll.arm (fun _ _ => hpos) _, rfl, fun h => ?_⟩
    exact Ahead.arm (s := Session.poll { s with loops := s.loops + 1, stopped := false }) h
      fun _ _ => hpos

theorem Stands.stopLoop (H : Stands asks s) : Stands asks s.stopLoop.2 :=
  H.congr rfl rfl (List.filter_subset_self _)

theorem Ahead.stopLoop (h : s.Ahead) : s.stopLoop.2.Ahead :=
  fun a ha => h a (List.mem_of_mem_filter ha)

theorem Stands.requestSave (H : Stands asks s) {message : String}
    (h : s.requestSave message = (.ok (), s')) :
    Stands (asks ++ [.requestSave message]) s' ∧ (s.Ahead → s'.Ahead) := by
  obtain ⟨-, -, rfl⟩ := requestSave_eq_ok_iff.1 h
  refine ⟨((H.publish _).post rfl).arm (by simp) _, fun hahead => ?_⟩
  exact Ahead.arm (s := (s.publish _).post (.requestSave message)) hahead (by simp)

end Session

/-! ## The host -/

namespace HostCrew

/-- A host listens, somebody holds on to it, and its jobs have posted some answers. -/
structure Stands (answers : List Message) (c : HostCrew) : Prop where
  ping : c.desk.host.bus.handler .ping = some ()
  requestSave : c.desk.host.bus.handler .requestSave = some ()
  kept : c.desk.host.kept = true
  outbound : c.desk.host.bus.outbound = some (answers.map (·.frame))
  answers : ∀ m ∈ answers, m.isAnswer

/-- What is noted when the host is given a frame: that it is taken, and which job it starts. -/
def Taking (events : List Event) : Prop :=
  ∀ e ∈ events, (∃ k, e = .taken (.ok k)) ∨ ∃ n m, e = .started n m

variable {target : String} {earlier : List (String × String)} {requests : List (Nat × String)}
  {steps : List (Nat × Made)} {l : Line} {c c' : HostCrew} {answers : List Message} {m : Message}

theorem dispatch_frame (H : Stands answers c) (hm : m.isAnswer = false) :
    dispatch m.frame c = (.ok m.kind, handle m c) ∧
      dispatchEvents m.frame c =
        .taken (.ok m.kind) :: m.request?.toList.map fun t => .started c.started t := by
  have hhandler : c.desk.host.bus.handler m.kind = some () := by
    cases m with
    | ping => exact H.ping
    | requestSave => exact H.requestSave
    | pong | saveResult => cases hm
  have halive : c.isAlive := by rw [isAlive, H.kept]; rfl
  have hroute := Bus.route_frame hhandler
  have hdispatch : dispatch m.frame c = (.ok m.kind, handle m c) := by
    rw [dispatch, hroute]
    exact congrArg _ (if_pos ⟨rfl, halive⟩)
  refine ⟨hdispatch, ?_⟩
  rw [dispatchEvents, hdispatch, hroute]
  cases m with
  | requestSave message => exact congrArg _ (if_pos ⟨rfl, halive⟩)
  | ping | pong | saveResult => rfl

theorem Stands.congr (H : Stands answers c) (hbus : c'.desk.host.bus = c.desk.host.bus)
    (hkept : c'.desk.host.kept = c.desk.host.kept) : Stands answers c' :=
  ⟨hbus ▸ H.ping, hbus ▸ H.requestSave, hkept.trans H.kept, hbus ▸ H.outbound, H.answers⟩

theorem Stands.start (H : Stands answers c) (job : Job Unit) : Stands answers (c.start job) :=
  H.congr rfl rfl

theorem Stands.handle (H : Stands answers c) (m : Message) : Stands answers (handle m c) := by
  cases m with
  | ping =>
    rw [HostCrew.handle]
    split
    · exact H
    · exact H.congr rfl rfl
  | requestSave => exact H.start _
  | pong | saveResult => exact H

theorem Serves.handle (H : Serves target earlier requests steps l c) (hm : m.isAnswer = false) :
    ∃ l', Serves target earlier (requests ++ m.request?.toList.map (c.started, ·)) steps l'
      (handle m c) := by
  cases m with
  | ping =>
    rw [HostCrew.handle]
    split
    · exact ⟨l, (List.append_nil requests).symm ▸ H⟩
    · have hpolling : Serves target earlier requests steps l
          (setHost { c.desk.host with polling := true } c) :=
        H.setDesk rfl (fun _ hn => hn) rfl rfl
      rw [H.target_eq]
      exact hpolling.start none
  | requestSave message =>
    rw [HostCrew.handle, H.target_eq]
    exact H.start (some message)
  | pong | saveResult => cases hm

/-- Every frame that asks for something is taken, and a job is started for each save request. -/
theorem Serves.dispatchAll (H : Serves target earlier requests steps l c) (hc : Stands answers c)
    {asks : List Message} (hasks : ∀ m ∈ asks, m.isAnswer = false) :
    let events := dispatchAllEvents (asks.map (·.frame)) c
    Taking events ∧ (started events).map (·.2) = asks.filterMap Message.request? ∧
      Stands answers (HostCrew.dispatchAll (asks.map (·.frame)) c).2 ∧
      ∃ l', Serves target earlier (requests ++ started events) steps l'
        (HostCrew.dispatchAll (asks.map (·.frame)) c).2 := by
  induction asks generalizing c l requests with
  | nil =>
    have htaking : Taking [] := fun e he => absurd he List.not_mem_nil
    exact ⟨htaking, rfl, hc, l, (List.append_nil requests).symm ▸ H⟩
  | cons m asks ih =>
    have hm := hasks m (.head _)
    obtain ⟨hdispatch, hevents⟩ := dispatch_frame hc hm
    obtain ⟨l', H'⟩ := H.handle hm
    have hnext : (dispatch m.frame c).2 = HostCrew.handle m c := congrArg Prod.snd hdispatch
    have hasks' : ∀ n ∈ asks, n.isAnswer = false := fun n hn => hasks n (.tail _ hn)
    obtain ⟨htaking, hstarted, hc', l'', H''⟩ := ih H' (hc.handle m) hasks'
    have hfirst : started (dispatchEvents m.frame c) = m.request?.toList.map (c.started, ·) := by
      rw [hevents]
      cases m.request? <;> rfl
    rw [List.map_cons, dispatchAllEvents, HostCrew.dispatchAll, hnext]
    intro events
    refine ⟨?_, ?_, hc', l'', ?_⟩
    · intro e he
      obtain he | he := List.mem_append.1 he
      · rw [hevents] at he
        obtain rfl | he := List.mem_cons.1 he
        · exact .inl ⟨m.kind, rfl⟩
        · obtain ⟨t, -, rfl⟩ := List.mem_map.1 he
          exact .inr ⟨c.started, t, rfl⟩
      · exact htaking e he
    · rw [started_append, hfirst, List.map_append, hstarted, List.map_map, List.filterMap_cons]
      cases m.request? <;> rfl
    · rw [started_append, hfirst, ← List.append_assoc]
      exact H''

/-- What the jobs have posted waits for the view. -/
theorem Stands.postAll (H : Stands answers c) {posted : List Message}
    (hbus : c'.desk.host.bus = c.desk.host.bus.postAll posted)
    (hkept : c'.desk.host.kept = c.desk.host.kept) (hposted : ∀ m ∈ posted, m.isAnswer) :
    Stands (answers ++ posted) c' where
  ping := by
    rw [hbus, Bus.handler_postAll, H.ping]
  requestSave := by
    rw [hbus, Bus.handler_postAll, H.requestSave]
  kept := hkept.trans H.kept
  outbound := by
    rw [hbus, Bus.outbound_postAll H.outbound, List.map_append]
  answers m hm := (List.mem_append.1 hm).elim (H.answers m) (hposted m)

theorem Stands.reflects (H : Stands answers c) {made : List Made}
    (h : Desk.Reflects made c.desk c'.desk) (hmade : ∀ m ∈ posts made, m.isAnswer) :
    Stands (answers ++ posts made) c' := H.postAll h.bus h.kept hmade

theorem Stands.drain (H : Stands answers c) :
    (HostCrew.drain c).1 = answers.map (·.frame) ∧ Stands [] (HostCrew.drain c).2 := by
  have hdrain : c.desk.host.bus.drain =
      (answers.map (·.frame), { c.desk.host.bus with outbound := some [] }) := by
    rw [Bus.drain, H.outbound]
    rfl
  rw [HostCrew.drain, hdrain]
  exact ⟨rfl, H.ping, H.requestSave, H.kept, rfl, nofun⟩

end HostCrew
end PublishDesk
