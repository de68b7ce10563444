import PublishDesk.Client.ViewRun
import PublishDesk.Proofs.View.SaveRequests

/-!
# What moves the save indicator

The save indicator of a view changes in three ways only: a request sets it to `inFlight`
(`SaveRun.save_of_start`), a save result sets it to `succeeded` or `failed` (`Session.save_handle`),
and the time that passes may set it back to `idle` (`Session.save_advance`). A save command ends
with the code of the indicator that it sees (`SaveRun.code_of_poll`).
-/

namespace PublishDesk

/-- The indicator of a save that has ended. -/
def SaveIndicator.ofOutcome (ok : Bool) : SaveIndicator := if ok then .succeeded else .failed

namespace Session

theorem save_handle (m : Message) (s : Session) : (s.handle m).state.save =
    match m with
    | .saveResult ok => .ofOutcome ok
    | _ => s.state.save := by
  cases m with
  | pong status =>
    rw [handle]
    split <;> rfl
  | ping | requestSave _ | saveResult _ => rfl

theorem ended_handle (m : Message) {s : Session} (h : ∃ ok, s.state.save = .ofOutcome ok) :
    ∃ ok, (s.handle m).state.save = .ofOutcome ok := by
  rw [save_handle]
  cases m with
  | saveResult ok => exact ⟨ok, rfl⟩
  | ping | pong _ | requestSave _ => exact h

theorem save_ring (a : Alarm) (s : Session) :
    (s.ring a).state.save = s.state.save ∨ (s.ring a).state.save = .idle := by
  cases a with
  | poll n => exact .inl rfl
  | clear g =>
    rw [ring]
    split
    · next h =>
      refine .inr ?_
      rw [publish, ViewState.clear, if_pos h]
    · exact .inl rfl

theorem save_ringDue (s : Session) :
    s.ringDue.state.save = s.state.save ∨ s.ringDue.state.save = .idle := by
  rw [ringDue]
  generalize (s.alarms.filter (·.1 ≤ s.now)).map (·.2) = due
  suffices h : ∀ t : Session, t.state.save = s.state.save ∨ t.state.save = .idle →
      (due.foldl ring t).state.save = s.state.save ∨ (due.foldl ring t).state.save = .idle from
    h _ (.inl rfl)
  induction due with
  | nil => exact fun t ht => ht
  | cons a due ih =>
    refine fun t ht => ih _ ?_
    obtain h | h := save_ring a t
    · exact h ▸ ht
    · exact .inr h

/-- The time that passes can only clear the indicator. -/
theorem save_elapse (target now : Nat) (s : Session) :
    (s.elapse target now).state.save = s.state.save ∨ (s.elapse target now).state.save = .idle := by
  fun_induction elapse target now s with
  | case1 now s t hnone => exact save_ringDue { s with now := now }
  | case2 now s t next hnext h ih =>
    obtain ht | ht := save_ringDue { s with now := now }
    · exact ht ▸ ih
    · exact .inr (ih.elim (fun h => h.trans ht) id)
  | case3 now s t next hnext h => exact save_ringDue { s with now := now }

theorem save_advance (milliseconds : Nat) (s : Session) :
    (s.advance milliseconds).state.save = s.state.save ∨
      (s.advance milliseconds).state.save = .idle := save_elapse ..

end Session

theorem exists_checkMessage (least : Nat) : ∃ message, checkMessage message least = .ok () := by
  refine ⟨String.ofList (List.replicate (least + 1) 'a'), ?_⟩
  have htrim (n : Nat) : Text.trim (List.replicate n 'a') = List.replicate n 'a' := by
    have hblank : Text.isBlank 'a' = false := by decide
    simp [Text.trim, Text.trimEnd, Text.trimStart, hblank]
  rw [checkMessage, String.toList_ofList, htrim, List.length_replicate]
  exact if_neg (by omega)

/-- What a view reports in place of a failure is no result of a save. -/
theorem ViewRun.code_close_failure (d : Diagnosis) (v : ViewRun) :
    (v.close (.failure d)).code = Ending.invalid := by
  unfold close
  rcases v.streamEnd with _ | _ | _ <;> rfl

/-- A view reports a result with its code, unless its stream has broken off. -/
theorem ViewRun.code_close_result (e : Ending) (v : ViewRun) :
    (v.close (.result e)).code = e.code ∨ (v.close (.result e)).code = Ending.invalid := by
  unfold close
  rcases v.streamEnd with _ | _ | _
  · exact .inl rfl
  · exact .inr rfl
  · exact .inl rfl

namespace SaveRun

/-- A request that is made sets the indicator to `inFlight`, and changes nothing else that a save
command looks at. -/
theorem save_of_start {message : String} {seconds : Nat} {view : ViewRun} {run : SaveRun}
    (h : start message seconds view = .ok run) :
    run.view.session.state.save = .inFlight ∧ run.view.cancelled = view.cancelled ∧
      run.view.streamEnd = view.streamEnd := by
  obtain ⟨r, hrefused⟩ | ⟨-, -, haccepted⟩ := Session.requestSave_cases message view.session
  · rw [start, hrefused] at h
    cases h
  · rw [start, haccepted] at h
    cases h
    exact ⟨rfl, rfl, rfl⟩

theorem exists_start (settings : ViewSettings) (seconds : Nat) :
    ∃ message run, start message seconds (ViewRun.connected settings) = .ok run := by
  obtain ⟨message, hmessage⟩ := exists_checkMessage settings.minMessageLength
  have haccepted : (ViewRun.connected settings).session.requestSave message = (.ok (), _) :=
    Session.requestSave_eq_ok_iff.2 ⟨checkMessage_eq_ok_iff.1 hmessage, nofun, rfl⟩
  refine ⟨message, ?_⟩
  rw [start, haccepted]
  exact ⟨_, rfl⟩

theorem code_of_start {message : String} {seconds : Nat} {view : ViewRun} {ending : Ending}
    (h : start message seconds view = .error ending) : ending.code = Ending.invalid := by
  simp only [start] at h
  split at h
  · cases h
  · cases h
    exact ViewRun.code_close_failure _ _

/-- A save command ends with the code of the indicator that it sees. -/
theorem code_of_poll {run : SaveRun} {ending : Ending} (h : run.poll = some ending) :
    (ending.code = Ending.succeeded → run.view.session.state.save = .succeeded) ∧
      (ending.code = Ending.saveFailed → run.view.session.state.save = .failed) := by
  obtain ⟨verdict, hverdict, rfl⟩ := Option.map_eq_some_iff.1 h
  unfold verdict? at hverdict
  -- A result with another code does not become one with this code when the view is closed.
  have hother {e : Ending} {c code : Nat} (he : e.code = c) (hc : c ≠ code)
      (hcode : Ending.invalid ≠ code) : (run.view.close (.result e)).code ≠ code := by
    obtain h | h := ViewRun.code_close_result e run.view
    · rwa [h, he]
    · rwa [h]
  split at hverdict
  · next hsave =>
    cases hverdict
    exact ⟨fun _ => hsave, fun h => absurd h (hother rfl (by decide) (by decide))⟩
  · next hsave =>
    cases hverdict
    exact ⟨fun h => absurd h (hother rfl (by decide) (by decide)), fun _ => hsave⟩
  all_goals
    split at hverdict
    · cases hverdict
      exact ⟨fun h => absurd h (hother (c := Ending.timedOut) rfl (by decide) (by decide)),
        fun h => absurd h (hother (c := Ending.timedOut) rfl (by decide) (by decide))⟩
    · split at hverdict <;> cases hverdict
      rw [ViewRun.code_close_failure]
      exact ⟨nofun, nofun⟩

/-- A save command that sees how a save has ended ends with the code for that. -/
theorem exists_poll {run : SaveRun} (hstream : run.view.streamEnd = none)
    (h : ∃ ok, run.view.session.state.save = .ofOutcome ok) :
    ∃ ending, run.poll = some ending ∧
      (ending.code = Ending.succeeded ∨ ending.code = Ending.saveFailed) := by
  obtain ⟨ok, h⟩ := h
  unfold poll verdict? ViewRun.close
  rw [h, hstream]
  cases ok with
  | true => exact ⟨_, rfl, .inl rfl⟩
  | false => exact ⟨_, rfl, .inr rfl⟩

end SaveRun
end PublishDesk
