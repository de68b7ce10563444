import PublishDesk.Proofs.Client.SaveIndicator
import PublishDesk.Proofs.Service.Basic

/-!
# Whose save a caller reports

The result of a save does not say whose save it is. A caller takes the first result that reaches it
for that of its own save, and what was posted before it came has been dropped. So it reports its own
save if all saves requested before it came have been answered by then; otherwise it may report
another one (`Service.Reachable.honest_iff_quiet`).
-/

namespace PublishDesk

namespace Service

variable {target : String} {x y : Service} {k : Nat}

/-- The save that a caller has requested has ended. -/
def SaveEnded (target : String) (x : Service) (k : Nat) (o : SaveOutcome) : Prop :=
  ∃ (i : Nat) (message : String) (l : List (Exchange TreeStep TreeStep.Answer)),
    x.origins[i]? = some (.save k message) ∧ (Workflow.save target message).Transcript l o ∧
      Job.stepsOfWorkflow l <+: Mark.stepsOf (Crowd.marksOf x.crowd.log i)

/-- A caller that ends with the code of a save reports its own one. -/
def Honest (target : String) (x : Service) (k : Nat) : Prop :=
  ∀ c ending, x.callers[k]? = some c → c.phase = .ended ending →
    (ending.code = Ending.succeeded → x.SaveEnded target k .saved) ∧
      (ending.code = Ending.saveFailed → ∃ f, x.SaveEnded target k (.failed f))

/-- No save request is under way, and all saves have been answered. -/
structure Quiet (x : Service) : Prop where
  requests : ∀ c ∈ x.callers, ∀ message, c.request ≠ .underway message
  saves : ∀ (i : Nat) k message, x.origins[i]? = some (.save k message) →
    x.crowd.jobs[i]? = some (.ready (.done ()))

/-! ## Nothing is forgotten -/

/-- Another state has all jobs and all that has been noted. -/
structure Grows (x y : Service) : Prop where
  origins : x.origins <+: y.origins
  log : x.crowd.log <+: y.crowd.log

theorem Step.grows (h : Step target x y) : x.Grows y := by
  cases h with
  | deliver | ping => exact ⟨List.prefix_append .., List.prefix_rfl⟩
  | work _ hm => exact ⟨List.prefix_rfl, hm ▸ List.prefix_append ..⟩
  | attach | request | refuse | lose | receive | advance | endStream | look | leave =>
    exact ⟨List.prefix_rfl, List.prefix_rfl⟩

theorem SaveEnded.mono {o : SaveOutcome} (H : x.SaveEnded target k o) (h : x.Grows y) :
    y.SaveEnded target k o := by
  obtain ⟨i, message, l, hi, hl, hbegins⟩ := H
  obtain ⟨⟨origins, horigins⟩, ⟨log, hlog⟩⟩ := h
  refine ⟨i, message, l, ?_, hl, hbegins.trans ?_⟩
  · rw [← horigins, List.getElem?_append_left (List.getElem?_eq_some_iff.1 hi).1]
    exact hi
  · rw [← hlog, Crowd.marksOf_append, Mark.stepsOf_append]
    exact List.prefix_append ..

/-! ## A caller that comes when all is quiet -/

/-- An indicator tells the truth about the save of a caller. -/
structure Tells (target : String) (x : Service) (k : Nat) (i : SaveIndicator) : Prop where
  succeeded : i = .succeeded → x.SaveEnded target k .saved
  failed : i = .failed → ∃ f, x.SaveEnded target k (.failed f)

/-- What a caller has come to believe of its save is true. -/
def Shows (target : String) (x : Service) (k : Nat) : CallerPhase → Prop
  | .attached _ => True
  | .waiting run => x.Tells target k run.view.session.state.save
  | .ended ending =>
    (ending.code = Ending.succeeded → x.SaveEnded target k .saved) ∧
      (ending.code = Ending.saveFailed → ∃ f, x.SaveEnded target k (.failed f))

theorem Tells.mono {i : SaveIndicator} (H : x.Tells target k i) (h : x.Grows y) :
    y.Tells target k i where
  succeeded hi := (H.succeeded hi).mono h
  failed hi := (H.failed hi).imp fun _ hf => hf.mono h

theorem Shows.mono {p : CallerPhase} (H : x.Shows target k p) (h : x.Grows y) :
    y.Shows target k p := by
  cases p with
  | attached view => trivial
  | waiting run => exact Tells.mono H h
  | ended ending => exact ⟨fun hc => (H.1 hc).mono h, fun hc => (H.2 hc).imp fun _ hf => hf.mono h⟩

theorem Shows.mapView {p : CallerPhase} (H : x.Shows target k p) {f : ViewRun → ViewRun}
    (hf : ∀ v : ViewRun, x.Tells target k v.session.state.save →
      x.Tells target k (f v).session.state.save) : x.Shows target k (p.mapView f) := by
  cases p with
  | attached view => trivial
  | waiting run => exact hf _ H
  | ended ending => exact H

/-- An end that is none of a save promises nothing. -/
theorem Shows.of_invalid {ending : Ending} (h : ending.code = Ending.invalid) :
    x.Shows target k (.ended ending) := by
  constructor
  · exact fun hc => absurd (h.symm.trans hc) (by decide)
  · exact fun hc => absurd (h.symm.trans hc) (by decide)

theorem Tells.advance {v : ViewRun} (H : x.Tells target k v.session.state.save)
    (milliseconds : Nat) : x.Tells target k (v.advance milliseconds).session.state.save := by
  obtain h | h := Session.save_advance milliseconds v.session
  · exact h ▸ H
  · exact h ▸ ⟨nofun, nofun⟩

theorem Tells.endStream {v : ViewRun} (H : x.Tells target k v.session.state.save)
    (result : Except TransportFailure Unit) :
    x.Tells target k (v.endStream result).session.state.save := by
  unfold ViewRun.endStream
  split <;> exact H

theorem Tells.take {v : ViewRun} (H : x.Tells target k v.session.state.save) {m : Message}
    (hm : ∀ ok, m = .saveResult ok → ∃ o, x.SaveEnded target k o ∧ o.ok = ok) :
    x.Tells target k (v.take m).session.state.save := by
  unfold ViewRun.take
  split
  · exact H
  · rw [Session.save_handle]
    cases m with
    | ping | pong _ | requestSave _ => exact H
    | saveResult ok =>
      obtain ⟨o, ho, rfl⟩ := hm ok rfl
      cases o with
      | saved => exact ⟨fun _ => ho, nofun⟩
      | failed f => exact ⟨nofun, fun _ => ⟨f, ho⟩⟩

/-- The invariant of a caller that has come when all was quiet. -/
structure Told (target : String) (k : Nat) (x : Service) : Prop where
  sound : Sound target x
  known : k < x.callers.length
  /-- The requests of earlier callers are settled, or will never be made. -/
  requests : ∀ (j : Nat) c, j < k → x.callers[j]? = some c →
    ∀ message, c.request ≠ .underway message
  /-- The saves of earlier callers have been answered. -/
  saves : ∀ (i : Nat) j message, j < k → x.origins[i]? = some (.save j message) →
    x.crowd.jobs[i]? = some (.ready (.done ()))
  /-- While the caller holds the stream, it gets no results but those of its own save. -/
  queue : x.holder = some k → ∀ i ok, (i, .saveResult ok) ∈ x.queue →
    ∃ o, x.SaveEnded target k o ∧ o.ok = ok
  shows : ∀ c, x.callers[k]? = some c → x.Shows target k c.phase

theorem Quiet.told (h : Reachable target x) (hq : x.Quiet) (hfree : x.holder = none)
    (settings : ViewSettings) : Told target x.callers.length (x.attach settings) where
  sound := h.sound.step (.attach settings hfree)
  known := by simp [attach]
  requests j c hj hc := by
    rw [attach, List.getElem?_append_left hj] at hc
    exact hq.requests c (List.mem_of_getElem? hc)
  saves i j message _ hi := hq.saves i j message hi
  queue _ _ _ h := nomatch h
  shows c hc := by
    obtain rfl : _ = c := by simpa [attach] using hc
    trivial

theorem Told.setCaller (H : Told target k x) {j : Nat} {c c' : Caller}
    (hsound : Sound target (x.setCaller j c')) (hj : x.callers[j]? = some c)
    (hrequest : j < k → ∀ message, c'.request ≠ .underway message)
    (hshows : j = k → x.Shows target k c'.phase) : Told target k (x.setCaller j c') where
  sound := hsound
  known := by
    rw [Service.setCaller, List.length_set]
    exact H.known
  requests i d hi hd := by
    rw [getElem?_setCaller hj] at hd
    split at hd
    · next hij =>
      cases hd
      exact hrequest (hij ▸ hi)
    · exact H.requests i d hi hd
  saves := H.saves
  queue := H.queue
  shows d hd := by
    rw [getElem?_setCaller hj] at hd
    split at hd
    · next hkj =>
      cases hd
      exact (hshows hkj.symm).mono ⟨List.prefix_rfl, List.prefix_rfl⟩
    · exact (H.shows d hd).mono ⟨List.prefix_rfl, List.prefix_rfl⟩

theorem Told.mapView (H : Told target k x) {j : Nat} {c : Caller} {f : ViewRun → ViewRun}
    (hsound : Sound target (x.setCaller j (c.mapView f))) (hj : x.callers[j]? = some c)
    (hf : j = k → ∀ v : ViewRun, x.Tells target k v.session.state.save →
      x.Tells target k (f v).session.state.save) : Told target k (x.setCaller j (c.mapView f)) :=
  H.setCaller hsound hj (fun hlt => H.requests j c hlt hj) fun hjk =>
    (H.shows c (hjk ▸ hj)).mapView (hf hjk)

/-- A caller that holds the stream is not one that has come earlier. -/
theorem Told.le_of_holder (H : Told target k x) {j : Nat} (hj : x.holder = some j) : k ≤ j := by
  have hknown := H.known
  rw [H.sound.latest j hj] at hknown
  exact Nat.le_of_lt_succ hknown

theorem Told.settle (H : Told target k x) {j : Nat} {phase : CallerPhase} {message : String}
    (hj : x.callers[j]? = some ⟨phase, .underway message⟩) :
    Told target k (x.setCaller j ⟨phase, .settled⟩) :=
  H.setCaller (H.sound.step (.lose hj)) hj (fun _ => nofun) fun hjk =>
    H.shows ⟨phase, .underway message⟩ (hjk ▸ hj)

/-- A job that is started for none of the earlier callers. -/
theorem Told.startJob (H : Told target k x) {o : Origin}
    (hsound : Sound target (x.startJob target o)) (ho : ∀ j message, o = .save j message → k ≤ j) :
    Told target k (x.startJob target o) := by
  have hgrows : x.Grows (x.startJob target o) := ⟨List.prefix_append .., List.prefix_rfl⟩
  refine ⟨hsound, H.known, H.requests, fun i j message hj hi => ?_, fun hh i ok hi => ?_,
    fun c hc => (H.shows c hc).mono hgrows⟩
  · rw [Service.startJob, List.getElem?_append] at hi
    split at hi
    · have hdone := H.saves i j message hj hi
      exact (List.getElem?_append_left (List.getElem?_eq_some_iff.1 hdone).1).trans hdone
    · rw [List.getElem?_singleton] at hi
      split at hi
      · exact absurd (ho j message (Option.some.inj hi)) (Nat.not_le_of_lt hj)
      · cases hi
  · obtain ⟨outcome, hended, hok⟩ := H.queue hh i ok hi
    exact ⟨outcome, hended.mono hgrows, hok⟩

theorem mem_posted {i j : Nat} {m : Mark} {ok : Bool} (h : (j, .saveResult ok) ∈ posted i m) :
    j = i ∧ m = .met (Job.answered ok) := by
  unfold posted at h
  split at h
  · obtain ⟨rfl, rfl⟩ : j = i ∧ _ := by simpa using h
    exact ⟨rfl, rfl⟩
  · cases h

/-- The result that a job posts is that of a save, which has ended so. -/
theorem Sound.saveEnded_of_answered (H : Sound target x) {log : List (Nat × Mark)} {i : Nat}
    {ok : Bool} (hlog : x.crowd.log = log ++ [(i, .met (Job.answered ok))]) :
    ∃ j message o, x.origins[i]? = some (.save j message) ∧ x.SaveEnded target j o ∧ o.ok = ok := by
  have hi : i < x.origins.length := by
    have hlt := H.follows.noted (i, .met (Job.answered ok)) (by simp [hlog])
    rwa [List.length_map] at hlt
  obtain ⟨origin, horigin⟩ : ∃ o, x.origins[i]? = some o := ⟨_, List.getElem?_eq_getElem hi⟩
  obtain ⟨s, -, hist⟩ := H.exists_history horigin
  have hleads := hist.leads
  have hsteps : Mark.stepsOf (Crowd.marksOf x.crowd.log i) =
      Mark.stepsOf (Crowd.marksOf log i) ++ [Job.answered ok] := by
    rw [hlog, Crowd.marksOf_append, Mark.stepsOf_append]
    simp [Crowd.marksOf, Mark.stepsOf]
  rw [hsteps] at hleads
  obtain ⟨j, message, l, o, rfl, hl, htranscript, hok⟩ := Origin.save_of_answered hleads
  refine ⟨j, message, o, horigin, ⟨i, message, l, horigin, htranscript, ?_⟩, hok⟩
  rw [hsteps, ← hl]
  exact List.prefix_append ..

theorem Told.work (H : Told target k x) {i : Nat} {c : Crowd Unit} {m : Mark}
    (hs : Crowd.Step i x.crowd c) (hm : c.log = x.crowd.log ++ [(i, m)]) :
    Told target k { x with crowd := c, queue := x.queue ++ posted i m } := by
  have hstep : Step target x { x with crowd := c, queue := x.queue ++ posted i m } := .work hs hm
  have hsound := H.sound.step hstep
  refine ⟨hsound, H.known, H.requests, fun n j message hj hn => ?_, fun hh n ok hn => ?_,
    fun d hd => (H.shows d hd).mono hstep.grows⟩
  · exact (hs.ne_of_done (H.saves n j message hj hn)).2
  · obtain hn | hn := List.mem_append.1 hn
    · obtain ⟨o, ho, hok⟩ := H.queue hh n ok hn
      exact ⟨o, ho.mono hstep.grows, hok⟩
    · obtain ⟨rfl, rfl⟩ := mem_posted hn
      obtain ⟨j, message, o, horigin, hended, hok⟩ := hsound.saveEnded_of_answered hm
      -- An earlier caller's save has been answered before, and none has come after this one.
      have hle : k ≤ j := Nat.le_of_not_lt fun hlt =>
        (hs.ne_of_done (H.saves n j message hlt horigin)).1 rfl
      obtain ⟨d, hd, -⟩ := H.sound.requested n j message horigin
      have hlt : j < x.callers.length := (List.getElem?_eq_some_iff.1 hd).1
      rw [H.sound.latest k hh] at hlt
      obtain rfl : j = k := Nat.le_antisymm (Nat.le_of_lt_succ hlt) hle
      exact ⟨o, hended, hok⟩

theorem Told.receive (H : Told target k x) {i j : Nat} {c : Caller} {m : Message}
    {rest : List (Nat × Message)} (hh : x.holder = some j) (hj : x.callers[j]? = some c)
    (hq : x.queue = (i, m) :: rest) :
    Told target k ({ x with queue := rest }.setCaller j (c.mapView (·.take m))) := by
  have hrest : Told target k { x with queue := rest } :=
    ⟨⟨H.sound.follows, H.sound.orderly, H.sound.latest, H.sound.requested⟩, H.known, H.requests,
      H.saves, fun hh n ok hn => H.queue hh n ok (hq ▸ .tail _ hn), fun d hd =>
      (H.shows d hd).mono ⟨List.prefix_rfl, List.prefix_rfl⟩⟩
  refine hrest.mapView (H.sound.step (.receive hh hj hq)) hj fun hjk v hv => hv.take fun ok hm => ?_
  exact H.queue (hjk ▸ hh) i ok (hm ▸ hq ▸ .head _)

theorem Told.step (H : Told target k x) (h : Step target x y) : Told target k y := by
  have hstep := h
  have hsound := H.sound.step h
  cases h with
  | attach settings hh =>
    have hlast : (x.attach settings).holder = some k → False := fun h => by
      exact absurd (Option.some.inj h) (Nat.ne_of_gt H.known)
    have hcallers {j : Nat} (hj : j ≤ k) :
        (x.attach settings).callers[j]? = x.callers[j]? :=
      List.getElem?_append_left (Nat.lt_of_le_of_lt hj H.known)
    refine ⟨hsound, ?_, fun j c hj hc => ?_, H.saves, fun h => (hlast h).elim,
      fun c hc => ?_⟩
    · rw [Service.attach, List.length_append]
      exact Nat.lt_add_right 1 H.known
    · exact H.requests j c hj (hcallers (Nat.le_of_lt hj) ▸ hc)
    · exact (H.shows c (hcallers (Nat.le_refl k) ▸ hc)).mono hstep.grows
  | request hh hk hrun =>
    refine H.setCaller hsound hk (fun hlt => absurd (H.le_of_holder hh) (Nat.not_le_of_lt hlt))
      fun _ => ?_
    obtain ⟨hsave, -⟩ := SaveRun.save_of_start hrun
    exact ⟨fun h => by simp [hsave] at h, fun h => by simp [hsave] at h⟩
  | refuse hh hk hrun =>
    refine H.setCaller hsound hk (fun _ message hrequest => ?_) fun _ => ?_
    · cases hrequest
    · exact .of_invalid (SaveRun.code_of_start hrun)
  | @deliver j phase message hk =>
    refine (H.settle hk).startJob hsound fun i message' ho => ?_
    cases ho
    exact Nat.le_of_not_lt fun hlt => H.requests j _ hlt hk message rfl
  | lose hk => exact H.settle hk
  | ping =>
    refine H.startJob hsound fun j message ho => ?_
    cases ho
  | work hs hm => exact H.work hs hm
  | receive hh hk hq => exact H.receive hh hk hq
  | advance milliseconds hk => exact H.mapView hsound hk fun _ v hv => hv.advance milliseconds
  | endStream result hk => exact H.mapView hsound hk fun _ v hv => hv.endStream result
  | @look j run request ending hk hend =>
    refine H.setCaller hsound hk (fun hlt => H.requests j ⟨.waiting run, request⟩ hlt hk)
      fun hjk => ?_
    have htells : x.Shows target k (.waiting run) := H.shows ⟨.waiting run, request⟩ (hjk ▸ hk)
    obtain ⟨hsucceeded, hfailed⟩ := SaveRun.code_of_poll hend
    exact ⟨fun h => htells.succeeded (hsucceeded h), fun h => htells.failed (hfailed h)⟩
  | leave hh =>
    refine ⟨hsound, H.known, H.requests, H.saves, fun hnone => ?_, fun c hc => ?_⟩
    · cases hnone
    · exact (H.shows c hc).mono hstep.grows

theorem Told.honest (H : Told target k x) : x.Honest target k := fun c ending hc hended =>
  (hended ▸ H.shows c hc : x.Shows target k (.ended ending))

/-- A caller that comes when all is quiet reports its own save. -/
theorem Quiet.honest (hq : x.Quiet) (h : Reachable target x) (hfree : x.holder = none)
    {settings : ViewSettings} (hsteps : Steps target (x.attach settings) y) :
    y.Honest target x.callers.length := by
  suffices htold : Told target x.callers.length y from htold.honest
  induction hsteps with
  | refl => exact hq.told h hfree settings
  | tail _ hs ih => exact ih.step hs

end Service
end PublishDesk
