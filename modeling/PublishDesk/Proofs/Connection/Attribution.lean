import PublishDesk.Proofs.Connection.Dialogue
import PublishDesk.Proofs.View.ClearTimers

/-!
# Whose save a view shows

The result of a save does not say whose save it is, and a view may ask again as soon as its
indicator has cleared itself. So a result that ends the indicator of a request is that of an earlier
one if the earlier one was still unanswered when the request was made; otherwise it is that of the
request itself (`Dialogue.Reachable.attributed_iff_quiet`).
-/

namespace PublishDesk.Dialogue

open Job

variable {target : String} {settings : ViewSettings} {d e : Dialogue} {asks later : List Message}
  {message : String} {view : Session} {i k : Nat}

/-- The save of a request has ended. -/
def SaveEnded (target : String) (d : Dialogue) (k : Nat) (o : SaveOutcome) : Prop :=
  ∃ (i : Nat) (message : String) (l : List (Exchange TreeStep TreeStep.Answer)),
    d.asked[k]? = some message ∧ d.host.origins[i]? = some (.save k message) ∧
      (Workflow.save target message).Transcript l o ∧ stepsOfWorkflow l <+: d.host.steps i

/-- If the next answer turns the indicator from `inFlight` into a result, that is the result of the
latest request. -/
def Attributed (target : String) (d : Dialogue) : Prop :=
  ∀ i m rest ok, d.answers = (i, m) :: rest → d.view.state.save = .inFlight →
    (d.view.dispatch m.frame).2.state.save = .ofOutcome ok →
    ∃ k o, d.asked.length = k + 1 ∧ d.SaveEnded target k o ∧ o.ok = ok

/-- No save request is under way, and no result of a save. -/
structure Quiet (d : Dialogue) : Prop where
  requests : ∀ frames, d.view.bus.outbound = some frames →
    ∀ message, (Message.requestSave message).frame ∉ frames
  saves : ∀ (i : Nat) k message, d.host.origins[i]? = some (.save k message) →
    d.host.crowd.jobs[i]? = some (.ready (.done ()))
  results : ∀ i ok, (i, .saveResult ok) ∉ d.answers

theorem ofOutcome_inj {ok ok' : Bool} (h : SaveIndicator.ofOutcome ok = .ofOutcome ok') :
    ok = ok' := by
  cases ok <;> cases ok' <;> first | rfl | cases h

/-- Only the result of a save ends the indicator `inFlight`. -/
theorem Sound.of_ends (H : Sound target asks d) {m : Message} {rest : List (Nat × Message)}
    {ok : Bool} (h : d.answers = (i, m) :: rest) (hsave : d.view.state.save = .inFlight)
    (hends : (d.view.dispatch m.frame).2.state.save = .ofOutcome ok) : m = .saveResult ok := by
  rw [(H.answer h).1, Session.save_handle, hsave] at hends
  cases m with
  | saveResult ok' => rw [ofOutcome_inj hends]
  | ping | pong _ | requestSave _ => cases ok <;> cases hends

/-! ## Nothing is forgotten -/

structure Grows (d e : Dialogue) : Prop where
  asked : d.asked <+: e.asked
  origins : d.host.origins <+: e.host.origins
  steps : ∀ i, d.host.steps i <+: e.host.steps i

theorem Grows.trans {f : Dialogue} (h : d.Grows e) (h' : e.Grows f) : d.Grows f where
  asked := h.asked.trans h'.asked
  origins := h.origins.trans h'.origins
  steps i := (h.steps i).trans (h'.steps i)

theorem Step.grows (h : Step target d e) : d.Grows e := by
  cases h with
  | save h => exact ⟨List.prefix_append .., List.prefix_rfl, fun _ => List.prefix_rfl⟩
  | poll | runLoop | stopLoop | pass | answer =>
    exact ⟨List.prefix_rfl, List.prefix_rfl, fun _ => List.prefix_rfl⟩
  | @ask m bus h =>
    refine ⟨List.prefix_rfl, d.host.origins_handle m, fun i => ?_⟩
    simp only [HostCrowd.steps_handle, List.prefix_rfl]
  | work hs hm =>
    refine ⟨List.prefix_rfl, List.prefix_rfl, fun i => ?_⟩
    rw [HostCrowd.steps_note hm]
    exact List.prefix_append ..

theorem asked_of_steps (h : Steps target d e) : d.asked <+: e.asked := by
  induction h with
  | refl => exact List.prefix_rfl
  | tail _ hs ih => exact ih.trans hs.grows.asked

theorem getElem?_of_prefix {α : Type} {l l' : List α} (h : l <+: l') {a : α}
    (hi : l[i]? = some a) : l'[i]? = some a := by
  obtain ⟨hlt, rfl⟩ := List.getElem?_eq_some_iff.1 hi
  exact List.prefix_iff_getElem?.1 h i hlt

theorem SaveEnded.mono {o : SaveOutcome} (H : d.SaveEnded target k o) (h : d.Grows e) :
    e.SaveEnded target k o := by
  obtain ⟨i, message, l, hk, hi, hl, hbegins⟩ := H
  exact ⟨i, message, l, getElem?_of_prefix h.asked hk, getElem?_of_prefix h.origins hi, hl,
    hbegins.trans (h.steps i)⟩

/-! ## A request that is made when all is quiet -/

/-- The invariant after a request that was made when all was quiet, as long as it is the latest
one: no other results are to come than its own. -/
structure Own (target : String) (k : Nat) (d : Dialogue) : Prop where
  sound : ∃ asks, Sound target asks d
  latest : d.asked.length = k + 1
  begun : k ≤ d.host.saves
  earlier : ∀ (i : Nat) j message, d.host.origins[i]? = some (.save j message) → j < k →
    d.host.crowd.jobs[i]? = some (.ready (.done ()))
  results : ∀ i ok, (i, .saveResult ok) ∈ d.answers → ∃ o, d.SaveEnded target k o ∧ o.ok = ok

theorem Quiet.own (hq : d.Quiet) (H : Sound target asks d)
    (h : d.view.requestSave message = (.ok (), view)) :
    Own target d.asked.length (d.accept message view) where
  sound := ⟨_, H.accept h⟩
  latest := List.length_append
  begun := by
    -- No request waits for the host, so it has begun all of them.
    have hnone : asks.filterMap Message.request? = [] := by
      refine List.filterMap_eq_nil_iff.2 fun m hm => ?_
      cases m with
      | requestSave message' =>
        exact absurd (List.mem_map_of_mem hm) (hq.requests _ H.view.outbound message')
      | ping | pong | saveResult => rfl
    have hwaiting := H.waiting
    rw [hnone, List.drop_eq_nil_iff] at hwaiting
    exact hwaiting
  earlier i j message' hi _ := hq.saves i j message' hi
  results i ok hmem := absurd hmem (hq.results i ok)

theorem Own.attributed (H : Own target k d) : d.Attributed target := by
  intro i m rest ok hanswers hsave hends
  obtain ⟨asks, hsound⟩ := H.sound
  obtain rfl := hsound.of_ends hanswers hsave hends
  obtain ⟨o, ho, hok⟩ := H.results i ok (hanswers ▸ .head _)
  exact ⟨k, o, H.latest, ho, hok⟩

/-- The result that a job posts is that of the request that it has been started for. -/
theorem Sound.saveEnded_of_posting (H : Sound target asks d) {log : List (Nat × Mark)} {ok : Bool}
    (hlog : d.host.crowd.log = log ++ [(i, .met (posting (.saveResult ok)))]) :
    ∃ k message o, d.host.origins[i]? = some (.save k message) ∧ d.SaveEnded target k o ∧
      o.ok = ok := by
  have hi : i < d.host.origins.length := by
    have hlt := H.host.follows.noted (i, .met (posting (.saveResult ok))) (by simp [hlog])
    rwa [List.length_map] at hlt
  have horigin := List.getElem?_eq_getElem hi
  obtain ⟨s, -, hleads⟩ := H.host.exists_leads horigin
  have hsteps : d.host.steps i =
      Mark.stepsOf (Crowd.marksOf log i) ++ [posting (.saveResult ok)] := by
    rw [HostCrowd.steps, hlog, Crowd.marksOf_append, Mark.stepsOf_append]
    simp [Crowd.marksOf, Mark.stepsOf]
  obtain ⟨k, message, l, o, ho, hl, htranscript, hok⟩ :=
    Origin.save_of_answered (hsteps ▸ hleads)
  rw [ho] at horigin
  refine ⟨k, message, o, horigin, ⟨i, message, l, H.begun i k message horigin, horigin,
    htranscript, ?_⟩, hok⟩
  rw [hsteps, ← hl]
  exact List.prefix_append ..

theorem Own.work (H : Own target k d) {c : Crowd Unit} {m : Mark}
    (hs : Crowd.Step i d.host.crowd c) (hm : c.log = d.host.crowd.log ++ [(i, m)]) :
    Own target k
      { d with host := d.host.note c m, answers := d.answers ++ m.posted?.toList.map (i, ·) } := by
  obtain ⟨asks, hsound⟩ := H.sound
  have hwork := hsound.work hs hm
  have hstep : Step target d _ := .work hs hm
  refine ⟨⟨asks, hwork⟩, H.latest, H.begun, fun j n message hj hn => ?_, fun j ok hj => ?_⟩
  · exact (hs.ne_of_done (H.earlier j n message hj hn)).2
  · obtain hj | hj := List.mem_append.1 hj
    · obtain ⟨o, ho, hok⟩ := H.results j ok hj
      exact ⟨o, ho.mono hstep.grows, hok⟩
    · obtain ⟨n, hn, heq⟩ := List.mem_map.1 hj
      cases heq
      obtain rfl := posted?_eq_some_iff.1 (Option.mem_toList.1 hn)
      obtain ⟨n, message, o, horigin, hended, hok⟩ := hwork.saveEnded_of_posting hm
      -- The saves of earlier requests have been answered before, and no request has come after.
      have hle : k ≤ n := Nat.le_of_not_lt fun hlt =>
        (hs.ne_of_done (H.earlier i n message horigin hlt)).1 rfl
      have hlt := (List.getElem?_eq_some_iff.1 (hsound.begun i n message horigin)).1
      rw [H.latest] at hlt
      obtain rfl : n = k := Nat.le_antisymm (Nat.le_of_lt_succ hlt) hle
      exact ⟨o, hended, hok⟩

theorem Own.step (H : Own target k d) (h : Step target d e) (hasked : e.asked = d.asked) :
    Own target k e := by
  have hgrows := h.grows
  obtain ⟨asks, hsound⟩ := H.sound
  have hsound' := hsound.step h
  cases h with
  | save h =>
    have hlength := congrArg List.length hasked
    simp [accept] at hlength
  | poll | runLoop | stopLoop | pass => exact ⟨hsound', H.latest, H.begun, H.earlier, H.results⟩
  | @ask m bus h =>
    have hsaves := d.host.saves_handle target m
    refine ⟨hsound', H.latest, ?_, fun i j message hi hj => ?_, fun i ok hi => ?_⟩
    · exact hsaves ▸ Nat.le_add_right_of_le H.begun
    · obtain hi | ⟨-, ho | ⟨message', -, ho⟩⟩ := HostCrowd.getElem?_handle hi
      · exact HostCrowd.getElem?_jobs_handle (H.earlier i j message hi hj)
      · cases ho
      · cases ho
        exact absurd H.begun (Nat.not_le.2 hj)
    · obtain ⟨o, ho, hok⟩ := H.results i ok hi
      exact ⟨o, ho.mono hgrows, hok⟩
  | work hs hm => exact H.work hs hm
  | answer h =>
    exact ⟨hsound', H.latest, H.begun, H.earlier, fun i ok hi => H.results i ok (h ▸ .tail _ hi)⟩

/-- As long as it is the latest one, a request that was made when all was quiet gets its own
result. -/
theorem Quiet.attributed (hq : d.Quiet) (H : Sound target asks d)
    (h : d.view.requestSave message = (.ok (), view))
    (hsteps : Steps target (d.accept message view) e)
    (hasked : e.asked = d.asked ++ [message]) : e.Attributed target := by
  suffices hown : Own target d.asked.length e from hown.attributed
  induction hsteps with
  | refl => exact hq.own H h
  | @tail b c hb hs ih =>
    -- Requests are never taken back, so none has been accepted in between.
    have hle : (d.asked ++ [message]) <+: b.asked := asked_of_steps hb
    have heq : b.asked = d.asked ++ [message] :=
      (hs.grows.asked.trans (hasked ▸ List.prefix_rfl)).eq_of_length_le hle.length_le
    exact (ih heq).step hs (hasked.trans heq.symm)

/-! ## A request that is made while an earlier one is unanswered -/

/-- The host can be given all that the view has asked for up to some point. -/
theorem Sound.exists_delivered (H : Sound target (asks ++ later) d) : ∃ e, Steps target d e ∧
    Sound target later e ∧ e.view.state = d.view.state ∧ e.asked = d.asked ∧
      e.answers = d.answers ∧ d.host.origins <+: e.host.origins ∧
      ∀ i, e.host.steps i = d.host.steps i := by
  induction asks generalizing d with
  | nil => exact ⟨d, .refl, H, rfl, rfl, rfl, List.prefix_rfl, fun _ => rfl⟩
  | cons m asks ih =>
    have hreceive : d.view.bus.receive = (some m.frame,
        { d.view.bus with outbound := some ((asks ++ later).map (·.frame)) }) := by
      rw [Bus.receive, H.view.outbound]
      rfl
    have hstep : Step target d _ := .ask hreceive
    obtain ⟨rest, hrest, H'⟩ := H.ask hreceive
    obtain ⟨-, rfl⟩ := List.cons.inj hrest
    obtain ⟨e, he, hsound, hstate, hasked, hanswers, horigins, hsteps⟩ := ih H'
    refine ⟨e, .head hstep he, hsound, hstate, hasked, hanswers,
      (d.host.origins_handle m).trans horigins, fun i => (hsteps i).trans ?_⟩
    exact d.host.steps_handle m i

/-- The jobs of the host can end, and all that they post waits for the view then. -/
theorem Sound.exists_finished (H : Sound target asks d) : ∃ e, Steps target d e ∧
    Sound target asks e ∧ e.view = d.view ∧ e.asked = d.asked ∧
      e.host.origins = d.host.origins ∧ (∀ s ∈ e.host.crowd.jobs, s = .ready (.done ())) ∧
      (∀ a ∈ d.answers, a ∈ e.answers) ∧
      ∀ i, ∀ m ∈ posts (e.host.steps i), m ∈ posts (d.host.steps i) ∨ (i, m) ∈ e.answers := by
  obtain ⟨l, hl⟩ := H.host.orderly
  obtain ⟨c, hc, hdone⟩ := hl.exists_finish
  suffices hreach : ∃ e, Steps target d e ∧ Sound target asks e ∧ e.view = d.view ∧
      e.asked = d.asked ∧ e.host.origins = d.host.origins ∧ e.host.crowd = c ∧
      (∀ a ∈ d.answers, a ∈ e.answers) ∧
      ∀ i, ∀ m ∈ posts (e.host.steps i), m ∈ posts (d.host.steps i) ∨ (i, m) ∈ e.answers by
    obtain ⟨e, he, hsound, hview, hasked, horigins, rfl, hkept, hposts⟩ := hreach
    exact ⟨e, he, hsound, hview, hasked, horigins, fun s hs => (hdone s hs).choose_spec, hkept,
      hposts⟩
  clear hdone
  induction hc with
  | refl => exact ⟨d, .refl, H, rfl, rfl, rfl, rfl, fun _ => id, fun _ _ => .inl⟩
  | tail _ hs ih =>
    obtain ⟨e, he, hsound, hview, hasked, horigins, rfl, hkept, hposts⟩ := ih
    obtain ⟨i, hs⟩ := hs
    obtain ⟨m, -, -, -, -, hm, -⟩ := hs.inv
    refine ⟨_, he.tail (.work hs hm), hsound.work hs hm, hview, hasked, horigins, rfl,
      fun a ha => List.mem_append_left _ (hkept a ha), fun j n hn => ?_⟩
    rw [HostCrowd.steps_note hm, posts_append] at hn
    obtain hn | hn := List.mem_append.1 hn
    · exact (hposts j n hn).imp_right (List.mem_append_left _)
    · split at hn
      · next hji =>
        rw [HostCrowd.posts_stepsOf] at hn
        exact .inr (List.mem_append_right _ (hji ▸ List.mem_map_of_mem hn))
      · cases hn

theorem Sound.exists_result (H : Sound target asks d)
    (hi : d.host.origins[i]? = some (.save k message))
    (hdone : ∀ s ∈ d.host.crowd.jobs, s = .ready (.done ())) :
    ∃ ok, .saveResult ok ∈ posts (d.host.steps i) := by
  obtain ⟨s, hs, hleads⟩ := H.host.exists_leads hi
  obtain rfl := hdone s (List.mem_of_getElem? hs)
  obtain ⟨-, m, hposts, hkind⟩ | ⟨hrest, -⟩ := Origin.posts_of_leads hleads
  · cases m with
    | saveResult ok => exact ⟨ok, hposts ▸ .head _⟩
    | ping | pong | requestSave => cases hkind
  · exact absurd rfl hrest

theorem Sound.of_not_quiet (H : Sound target asks d) (hq : ¬ d.Quiet) :
    (∃ i ok, (i, .saveResult ok) ∈ d.answers) ∨
      (∃ (i : Nat) (k : Nat) (message : String),
        d.host.origins[i]? = some (.save k message) ∧ posts (d.host.steps i) = []) ∨
      d.host.saves < d.asked.length := by
  by_contra hnone
  push Not at hnone
  obtain ⟨hresults, hsaves, hlength⟩ := hnone
  refine hq ⟨fun frames hframes message hmem => ?_, fun i k message hi => ?_, hresults⟩
  · -- A request that waits for the host has not been begun.
    obtain rfl := Option.some.inj (H.view.outbound.symm.trans hframes)
    obtain ⟨m, hm, hframe⟩ := List.mem_map.1 hmem
    obtain rfl := Message.frame_inj hframe
    have hwaits : message ∈ asks.filterMap Message.request? := List.mem_filterMap.2 ⟨_, hm, rfl⟩
    rw [← H.waiting, List.drop_eq_nil_of_le hlength] at hwaits
    cases hwaits
  · exact (H.host.done_iff hi).2 (hsaves i k message hi)

/-- If more saves have been begun than before, one of them is new. -/
theorem Sound.exists_begun (H : Sound target asks d) (horigins : d.host.origins <+: e.host.origins)
    (hsaves : d.host.saves < e.host.saves) : ∃ (i : Nat) (k : Nat) (message : String),
      e.host.origins[i]? = some (.save k message) ∧ posts (d.host.steps i) = [] := by
  obtain ⟨new, hnew⟩ := horigins
  have hcount : e.host.saves = d.host.saves + new.countP (· != .ping) := by
    rw [HostCrowd.saves, ← hnew]
    exact List.countP_append
  have hpos : 0 < new.countP (· != .ping) := by omega
  obtain ⟨o, ho, hsave⟩ := List.countP_pos_iff.1 hpos
  obtain ⟨j, hj⟩ := List.getElem?_of_mem ho
  cases o with
  | ping => cases hsave
  | save k message =>
    refine ⟨d.host.origins.length + j, k, message, ?_, ?_⟩
    · rw [← hnew, List.getElem?_append_right (Nat.le_add_right _ _), Nat.add_sub_cancel_left, hj]
    · rw [H.host.steps_eq_nil (Nat.le_add_right _ _)]
      rfl

/-- If an earlier request is unanswered, its result can come before the host is given the latest
one. -/
theorem Sound.exists_waiting (H : Sound target asks d) (hq : ¬ d.Quiet)
    (h : d.view.requestSave message = (.ok (), view)) :
    ∃ e, Steps target (d.accept message view) e ∧
      Sound target [.requestSave message] e ∧ e.view.state = view.state ∧
      e.asked = d.asked ++ [message] ∧ ∃ i ok, (i, .saveResult ok) ∈ e.answers := by
  obtain ⟨e, he, hsound, hstate, hasked, hanswers, horigins, hsteps⟩ :=
    (H.accept h).exists_delivered
  obtain ⟨f, hf, hsound', hview, hasked', horigins', hdone, hkept, hposted⟩ :=
    hsound.exists_finished
  refine ⟨f, he.trans hf, hsound', (congrArg _ hview).trans hstate, hasked'.trans hasked, ?_⟩
  have hnew (hunanswered : ∃ (i : Nat) (k : Nat) (message : String),
      e.host.origins[i]? = some (.save k message) ∧ posts (d.host.steps i) = []) :
      ∃ i ok, (i, .saveResult ok) ∈ f.answers := by
    obtain ⟨i, k, message', hi, hposts⟩ := hunanswered
    obtain ⟨ok, hok⟩ := hsound'.exists_result (horigins'.symm ▸ hi) hdone
    obtain hold | hnew := hposted i _ hok
    · rw [hsteps, show (d.accept message view).host.steps i = d.host.steps i from rfl,
        hposts] at hold
      cases hold
    · exact ⟨i, ok, hnew⟩
  obtain ⟨i, ok, hmem⟩ | ⟨i, k, message', hi, hposts⟩ | hlt := H.of_not_quiet hq
  · exact ⟨i, ok, hkept _ (hanswers ▸ hmem)⟩
  · exact hnew ⟨i, k, message', getElem?_of_prefix horigins hi, hposts⟩
  · refine hnew (H.exists_begun horigins ?_)
    -- All requests but the latest one have been begun.
    have hwaiting := congrArg List.length hsound.waiting
    rw [List.length_drop, hasked] at hwaiting
    have hlength : (d.accept message view).asked.length = d.asked.length + 1 := List.length_append
    have hone : ([Message.requestSave message].filterMap Message.request?).length = 1 := rfl
    omega

/-- The view can take all answers before the first result of a save, and its indicator stays. -/
theorem Sound.exists_front (H : Sound target asks d) {ok : Bool}
    (hmem : (i, .saveResult ok) ∈ d.answers) : ∃ e j ok' rest, Steps target d e ∧
      Sound target asks e ∧ e.view.state.save = d.view.state.save ∧ e.asked = d.asked ∧
      e.answers = (j, .saveResult ok') :: rest := by
  induction hanswers : d.answers generalizing d with
  | nil =>
    rw [hanswers] at hmem
    cases hmem
  | cons a rest ih =>
    obtain ⟨j, m⟩ := a
    by_cases hm : ∃ ok', m = .saveResult ok'
    · obtain ⟨ok', rfl⟩ := hm
      exact ⟨d, j, ok', rest, .refl, H, rfl, rfl, hanswers⟩
    · obtain ⟨hdispatch, H'⟩ := H.answer hanswers
      have hstep : Step target d _ := .answer hanswers
      rw [hdispatch] at hstep
      have hrest : (i, .saveResult ok) ∈ rest := by
        rw [hanswers] at hmem
        obtain heq | hrest := List.mem_cons.1 hmem
        · cases heq
          exact absurd ⟨ok, rfl⟩ hm
        · exact hrest
      obtain ⟨e, j', ok', rest', he, hsound, hsave, hasked, hfront⟩ := ih H' hrest rfl
      refine ⟨e, j', ok', rest', .head hstep he, hsound, hsave.trans ?_, hasked, hfront⟩
      change (d.view.handle m).state.save = d.view.state.save
      rw [Session.save_handle]
      cases m with
      | saveResult ok' => exact absurd ⟨ok', rfl⟩ hm
      | ping | pong | requestSave => rfl

theorem Sound.exists_not_attributed (H : Sound target asks d) (hq : ¬ d.Quiet)
    (h : d.view.requestSave message = (.ok (), view)) :
    ∃ e, Steps target (d.accept message view) e ∧
      e.asked = d.asked ++ [message] ∧ ¬ e.Attributed target := by
  obtain ⟨e, he, hsound, hstate, hasked, i, ok, hmem⟩ := H.exists_waiting hq h
  obtain ⟨f, j, ok', rest, hf, hsound', hsave, hasked', hfront⟩ := hsound.exists_front hmem
  refine ⟨f, he.trans hf, hasked'.trans hasked, fun hattributed => ?_⟩
  have hinFlight : f.view.state.save = .inFlight := by
    rw [hsave, hstate]
    exact (Session.requestSave_eq_ok_iff.1 h).2.2 ▸ rfl
  have hends : (f.view.dispatch (Message.saveResult ok').frame).2.state.save = .ofOutcome ok' := by
    rw [(hsound'.answer hfront).1, Session.save_handle]
  obtain ⟨k, o, hlatest, ⟨n, message', -, -, hn, -⟩, -⟩ :=
    hattributed j _ rest ok' hfront hinFlight hends
  -- The latest request still waits for the host, so its save has not been begun.
  have hlt := hsound'.host.numbered n k message' hn
  have hwaiting := congrArg List.length hsound'.waiting
  rw [List.length_drop] at hwaiting
  have hone : ([Message.requestSave message].filterMap Message.request?).length = 1 := rfl
  omega

/-- Exactly the requests that are made when no earlier one is unanswered get their own results. -/
theorem Reachable.attributed_iff_quiet (h : Reachable target settings d)
    (hsave : d.view.requestSave message = (.ok (), view)) :
    (∀ e, Steps target (d.accept message view) e → e.asked = d.asked ++ [message] →
      e.Attributed target) ↔ d.Quiet := by
  obtain ⟨asks, H⟩ := h.sound
  constructor
  · intro hall
    by_contra hq
    obtain ⟨e, he, hasked, hnot⟩ := H.exists_not_attributed hq hsave
    exact hnot (hall e he hasked)
  · exact fun hq e he hasked => hq.attributed H hsave he hasked

/-- A view can ask again when its indicator has cleared itself, although the host has not even been
given its first request. -/
theorem exists_again : ∃ first d second,
    (opened {}).view.requestSave "rewrite the intro" = (.ok (), first) ∧ Reachable "updates" {} d ∧
      d.view.requestSave "add a summary" = (.ok (), second) ∧ ¬ d.Quiet := by
  obtain ⟨first, hfirst⟩ :
      ∃ first, (opened {}).view.requestSave "rewrite the intro" = (.ok (), first) :=
    ⟨_, Session.requestSave_eq_ok_iff.2 ⟨by decide, by decide, rfl⟩⟩
  obtain ⟨-, -, rfl⟩ := Session.requestSave_eq_ok_iff.1 hfirst
  have hasked : Reachable "updates" {} _ := .single (.save hfirst)
  have hcleared : Reachable "updates" {} _ := hasked.tail (.pass (Nat.zero_le 1000))
  refine ⟨_, _, _, hfirst, hcleared, Session.requestSave_eq_ok_iff.2 ⟨by decide, by decide, rfl⟩,
    fun hq => ?_⟩
  exact hq.requests _ rfl "rewrite the intro" (.head _)

/-- The result of the first request can end the indicator of the second one. -/
theorem exists_misattributed : ∃ d, Reachable "updates" {} d ∧ ¬ d.Attributed "updates" := by
  obtain ⟨-, d, second, -, hd, hsecond, hq⟩ := exists_again
  obtain ⟨asks, H⟩ := hd.sound
  obtain ⟨e, he, -, hnot⟩ := H.exists_not_attributed hq hsecond
  exact ⟨e, (hd.tail (.save hsecond)).trans he, hnot⟩

/-- The first request of a view gets its own result. One that is made when the indicator has cleared
itself before that need not. -/
theorem attributed_first_not_again :
    (∃ first, (opened {}).view.requestSave "rewrite the intro" = (.ok (), first) ∧
      ∀ e, Steps "updates" ((opened {}).accept "rewrite the intro" first) e →
        e.asked = ["rewrite the intro"] → e.Attributed "updates") ∧
    ∃ d second, Reachable "updates" {} d ∧ d.view.requestSave "add a summary" = (.ok (), second) ∧
      ¬ ∀ e, Steps "updates" (d.accept "add a summary" second) e →
        e.asked = d.asked ++ ["add a summary"] → e.Attributed "updates" := by
  obtain ⟨first, d, second, hfirst, hd, hsecond, hq⟩ := exists_again
  have hstart : Reachable "updates" {} (opened {}) := .refl
  have hquiet : (opened {}).Quiet := by
    refine ⟨fun frames hframes message hmem => ?_, nofun, nofun⟩
    obtain rfl := Option.some.inj hframes
    cases hmem
  refine ⟨⟨first, hfirst, (hstart.attributed_iff_quiet hfirst).2 hquiet⟩, d, second, hd, hsecond,
    fun hall => hq ?_⟩
  exact (hd.attributed_iff_quiet hsecond).1 hall

end PublishDesk.Dialogue
