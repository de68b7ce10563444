import PublishDesk.Proofs.Host.Progress
import PublishDesk.Proofs.Service.Honesty

/-!
# How a caller reports another one's save

A save goes on when the caller that has requested it is gone, and a request may even reach the host
after that. If a caller comes while there is such a save, the result of that save may reach it
before its own request has reached the host, and it ends with a code that says nothing of its own
save (`Service.Reachable.exists_not_honest`). Hence the callers that come when all is quiet are
exactly those that can rely on their codes (`Service.Reachable.honest_iff_quiet`).
-/

namespace PublishDesk

namespace Service

variable {target : String} {x y : Service} {k : Nat}

/-! ## The jobs go on -/

/-- A save has been answered if and only if its job has ended. -/
theorem Sound.done_iff_answered (H : Sound target x) {i j : Nat} {message : String}
    (hi : x.origins[i]? = some (.save j message)) :
    x.crowd.jobs[i]? = some (.ready (.done ())) ↔
      ∃ ok, (i, .met (Job.answered ok)) ∈ x.crowd.log := by
  obtain ⟨s, hs, hist⟩ := H.exists_history hi
  have hleads : (Job.save target message).Leads _ _ := hist.leads
  simp only [← Mark.mem_stepsOf_marksOf]
  constructor
  · intro hdone
    obtain rfl := Option.some.inj (hs.symm.trans hdone)
    have hall := hleads.transcript (Program.transcript_done_iff.2 ⟨rfl, rfl⟩)
    obtain ⟨l, o, -, hl⟩ := Job.transcript_save_iff.1 hall
    rw [List.append_nil] at hl
    exact ⟨o.ok, hl ▸ List.mem_append_right _ (.head _)⟩
  · rintro ⟨ok, hok⟩
    obtain ⟨hrest, -⟩ := Job.leads_save_of_answered hleads hok
    obtain ⟨l, hl⟩ := H.orderly
    rw [hs, hl.eq_of_rest hs hrest]

/-- A save that has not been answered can be answered now, and everybody else stays as he is. -/
theorem Sound.exists_answer (H : Sound target x) {i j : Nat} {message : String}
    (hi : x.origins[i]? = some (.save j message))
    (hundone : x.crowd.jobs[i]? ≠ some (.ready (.done ()))) :
    ∃ c queue ok, Steps target x { x with crowd := c, queue := queue } ∧
      (i, .saveResult ok) ∈ queue := by
  obtain ⟨ledger, hledger⟩ := H.orderly
  obtain ⟨c, hcrowd, hall⟩ := hledger.exists_finish
  obtain ⟨l, hl, hsteps⟩ := steps_of_crowd target hcrowd
  have Hc := H.steps hsteps
  have hdone : c.jobs[i]? = some (.ready (.done ())) := by
    obtain ⟨s, hs, -⟩ := Hc.exists_history hi
    obtain ⟨⟨⟩, rfl⟩ := hall s (List.mem_of_getElem? hs)
    exact hs
  obtain ⟨ok, hok⟩ := (Hc.done_iff_answered hi).1 hdone
  refine ⟨c, _, ok, hsteps, ?_⟩
  -- The answer has been posted on the way, since it had not been there before.
  rw [hl] at hok
  obtain hold | hnew := List.mem_append.1 hok
  · exact absurd ((H.done_iff_answered hi).2 ⟨ok, hold⟩) hundone
  · exact List.mem_append_right _ (List.mem_flatMap.2 ⟨_, hnew, .head _⟩)

/-! ## A caller takes the result of another one's save for its own -/

/-- A caller can receive all that waits for it. If a result of a save is among that, its indicator
then shows a result. -/
theorem exists_receive {run : SaveRun} {r : Request} (hh : x.holder = some k)
    (hk : x.callers[k]? = some ⟨.waiting run, r⟩) (hcancelled : run.view.cancelled = false)
    (hstream : run.view.streamEnd = none)
    (hresult : (∃ i ok, (i, .saveResult ok) ∈ x.queue) ∨
      ∃ ok, run.view.session.state.save = .ofOutcome ok) :
    ∃ y run', Steps target x y ∧ y.callers[k]? = some ⟨.waiting run', r⟩ ∧
      run'.view.streamEnd = none ∧ ∃ ok, run'.view.session.state.save = .ofOutcome ok := by
  induction hq : x.queue generalizing x run with
  | nil =>
    rw [hq] at hresult
    obtain ⟨i, ok, hmem⟩ | hshown := hresult
    · cases hmem
    · exact ⟨x, run, .refl, hk, hstream, hshown⟩
  | cons e rest ih =>
    obtain ⟨i, m⟩ := e
    have hstep : Step target x _ := .receive hh hk hq
    have htake := run.view.take_of_open hcancelled hstream m
    have hget := getElem?_setCaller (x := { x with queue := rest }) hk
      (Caller.mapView (·.take m) ⟨.waiting run, r⟩) k
    rw [if_pos rfl] at hget
    have hresult' : (∃ i ok, (i, .saveResult ok) ∈ rest) ∨
        ∃ ok, (run.view.take m).session.state.save = .ofOutcome ok := by
      rw [htake]
      obtain ⟨n, ok, hmem⟩ | hshown := hresult
      · rw [hq] at hmem
        obtain heq | hrest := List.mem_cons.1 hmem
        · cases heq
          exact .inr ⟨ok, Session.save_handle _ _⟩
        · exact .inl ⟨n, ok, hrest⟩
      · exact .inr (Session.ended_handle m hshown)
    obtain ⟨y, run', hsteps, hy⟩ :=
      ih (x := { x with queue := rest }.setCaller k _) hh hget (by simpa [htake] using hcancelled)
        (by simpa [htake] using hstream) hresult' rfl
    exact ⟨y, run', .head hstep hsteps, hy⟩

/-- A caller whose request is still under way can end with the result of a save, if the result of
any save is to come. -/
theorem Sound.exists_ended (H : Sound target x) {run : SaveRun} {r : Request}
    (hh : x.holder = some k) (hk : x.callers[k]? = some ⟨.waiting run, r⟩)
    (hcancelled : run.view.cancelled = false) (hstream : run.view.streamEnd = none)
    {i j : Nat} {message : String} (hi : x.origins[i]? = some (.save j message))
    (hundone : x.crowd.jobs[i]? ≠ some (.ready (.done ()))) :
    ∃ y ending, Steps target x y ∧ y.callers[k]? = some ⟨.ended ending, r⟩ ∧
      (ending.code = Ending.succeeded ∨ ending.code = Ending.saveFailed) := by
  obtain ⟨c, queue, ok, hanswer, hmem⟩ := H.exists_answer hi hundone
  obtain ⟨z, run', hreceive, hz, hstream', hshown⟩ :=
    exists_receive (x := { x with crowd := c, queue := queue }) hh hk hcancelled
      hstream (.inl ⟨i, ok, hmem⟩)
  obtain ⟨ending, hpoll, hcode⟩ := SaveRun.exists_poll hstream' hshown
  refine ⟨_, ending, (hanswer.trans hreceive).tail (.look hz hpoll), ?_, hcode⟩
  rw [getElem?_setCaller hz, if_pos rfl]

theorem of_not_quiet (h : ¬ x.Quiet) :
    (∃ j : Nat, ∃ phase message, x.callers[j]? = some ⟨phase, .underway message⟩) ∨
      ∃ i : Nat, ∃ j message, x.origins[i]? = some (.save j message) ∧
        x.crowd.jobs[i]? ≠ some (.ready (.done ())) := by
  by_cases hrequests : ∀ c ∈ x.callers, ∀ message, c.request ≠ .underway message
  · have hsaves : ¬ ∀ (i : Nat) j message, x.origins[i]? = some (.save j message) →
        x.crowd.jobs[i]? = some (.ready (.done ())) := fun hsaves => h ⟨hrequests, hsaves⟩
    push Not at hsaves
    exact .inr hsaves
  · push Not at hrequests
    obtain ⟨⟨phase, _⟩, hmem, message, rfl⟩ := hrequests
    obtain ⟨j, hj⟩ := List.getElem?_of_mem hmem
    exact .inl ⟨j, phase, message, hj⟩

/-- A request that is under way can become a save that is unanswered, whatever has become of its
caller. -/
theorem Sound.exists_unanswered (H : Sound target x) {c : Caller} {j : Nat} {phase : CallerPhase}
    {message : String} (hk : x.callers[k]? = some c) (hjk : j ≠ k)
    (hj : x.callers[j]? = some ⟨phase, .underway message⟩) :
    ∃ y, ∃ i : Nat, Step target x y ∧ y.holder = x.holder ∧ y.callers[k]? = some c ∧
      y.origins[i]? = some (.save j message) ∧ y.crowd.jobs[i]? ≠ some (.ready (.done ())) := by
  refine ⟨_, x.origins.length, .deliver hj, rfl, ?_, List.getElem?_concat_length, fun hdone => ?_⟩
  · exact (getElem?_setCaller hj _ k).trans ((if_neg hjk.symm).trans hk)
  · -- The log is as before, so it holds no answer of the new job.
    obtain ⟨ok, hok⟩ :=
      ((H.step (.deliver hj)).done_iff_answered List.getElem?_concat_length).1 hdone
    have hlt := H.follows.noted _ hok
    rw [List.length_map] at hlt
    exact Nat.lt_irrefl _ hlt

/-- A caller that comes while a save of an earlier one is unanswered, or may still be requested,
need not report its own save. -/
theorem Reachable.exists_not_honest (h : Reachable target x) (hfree : x.holder = none)
    (hq : ¬ x.Quiet) (settings : ViewSettings) :
    ∃ y, Steps target (x.attach settings) y ∧ ¬ y.Honest target x.callers.length := by
  obtain ⟨message, run, hrun⟩ := SaveRun.exists_start settings 60
  obtain ⟨-, hcancelled, hstream⟩ := SaveRun.save_of_start hrun
  have hnew : (x.attach settings).callers[x.callers.length]? =
      some ⟨.attached (ViewRun.connected settings), .unmade⟩ := List.getElem?_concat_length
  have hrequest : Step target (x.attach settings) _ := .request rfl hnew hrun
  have hget := getElem?_setCaller hnew ⟨.waiting run, .underway message⟩
  have hown := (hget _).trans (if_pos rfl)
  have hasked := (h.sound.step (.attach settings hfree)).step hrequest
  obtain ⟨z, i, j, message', hz, hholder, hk, hi, hundone⟩ : ∃ z, ∃ i : Nat, ∃ j message',
      Steps target (x.attach settings) z ∧ z.holder = some x.callers.length ∧
      z.callers[x.callers.length]? = some ⟨.waiting run, .underway message⟩ ∧
      z.origins[i]? = some (.save j message') ∧
      z.crowd.jobs[i]? ≠ some (.ready (.done ())) := by
    obtain ⟨j, phase, message', hj⟩ | ⟨i, j, message', hi, hundone⟩ := of_not_quiet hq
    · have hlt : j < x.callers.length := (List.getElem?_eq_some_iff.1 hj).1
      have hne := Nat.ne_of_lt hlt
      have hj' := (hget j).trans ((if_neg hne).trans ((List.getElem?_append_left hlt).trans hj))
      obtain ⟨z, i, hz, hholder, hk, hi⟩ := hasked.exists_unanswered hown hne hj'
      exact ⟨z, i, j, message', .head hrequest (.single hz), hholder, hk, hi⟩
    · exact ⟨_, i, j, message', .single hrequest, rfl, hown, hi, hundone⟩
  have hsound := (h.sound.step (.attach settings hfree)).steps hz
  obtain ⟨y, ending, hy, hended, hcode⟩ :=
    hsound.exists_ended hholder hk hcancelled hstream hi hundone
  refine ⟨y, hz.trans hy, fun hhonest => ?_⟩
  -- Its own save has not begun, since its request is still under way.
  have hnone (o : SaveOutcome) : ¬ y.SaveEnded target x.callers.length o := by
    rintro ⟨i, message, -, hi, -⟩
    obtain ⟨c, hc, hsettled⟩ := (hsound.steps hy).requested i _ message hi
    obtain rfl := Option.some.inj (hended.symm.trans hc)
    cases hsettled
  obtain ⟨hsucceeded, hfailed⟩ := hhonest _ ending hended rfl
  obtain hcode | hcode := hcode
  · exact hnone _ (hsucceeded hcode)
  · obtain ⟨f, hf⟩ := hfailed hcode
    exact hnone _ hf

/-- Exactly the callers that come when all is quiet can rely on their codes. -/
theorem Reachable.honest_iff_quiet (h : Reachable target x) (hfree : x.holder = none)
    (settings : ViewSettings) :
    (∀ y, Steps target (x.attach settings) y → y.Honest target x.callers.length) ↔ x.Quiet := by
  constructor
  · intro hall
    by_contra hq
    obtain ⟨y, hy, hnot⟩ := h.exists_not_honest hfree hq settings
    exact hnot (hall y hy)
  · exact fun hq y hy => hq.honest h hfree hy

/-- The first caller of a host can rely on its code. If it leaves while its save goes on, the next
one cannot. -/
theorem honest_first_not_next :
    (∀ y, Steps "updates" (attach {} {}) y → y.Honest "updates" 0) ∧
      ∃ x, Reachable "updates" x ∧ x.holder = none ∧ x.callers.length = 1 ∧
        ¬ ∀ y, Steps "updates" (x.attach {}) y → y.Honest "updates" 1 := by
  have hstart : Reachable "updates" {} := .refl
  have hquiet : Quiet {} := ⟨by simp, by simp⟩
  refine ⟨(hstart.honest_iff_quiet rfl {}).2 hquiet, ?_⟩
  obtain ⟨message, run, hrun⟩ := SaveRun.exists_start {} 60
  have hattached := hstart.tail (.attach {} rfl)
  have hnew : (attach {} {}).callers[0]? = some ⟨.attached (ViewRun.connected {}), .unmade⟩ := rfl
  have hwaiting := hattached.tail (.request rfl hnew hrun)
  have hasked := (getElem?_setCaller hnew ⟨.waiting run, .underway message⟩ 0).trans (if_pos rfl)
  have hgone : Reachable "updates" _ := (hwaiting.tail (.deliver hasked)).tail (.leave rfl)
  refine ⟨_, hgone, rfl, rfl, fun hall => ?_⟩
  have hdone := ((hgone.honest_iff_quiet rfl {}).1 hall).saves 0 0 message rfl
  obtain ⟨ok, hok⟩ := (hgone.sound.done_iff_answered rfl).1 hdone
  cases hok

end Service
end PublishDesk
