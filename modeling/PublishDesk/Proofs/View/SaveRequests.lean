import PublishDesk.View.Session

/-!
# Save requests

A view accepts a save request if the message is long enough and no other save is shown to be in
flight (`Session.requestSave_eq_ok_iff`): it shows a new indicator, posts one message and sets one
timer. A request that is refused leaves the session as it was (`Session.eq_of_requestSave_error`).
-/

namespace PublishDesk

open Text (trim)

variable {message : String} {r : SaveRefusal}

theorem checkMessage_eq_ok_iff {least : Nat} :
    checkMessage message least = .ok () ↔ max 1 least ≤ (trim message.toList).length := by
  unfold checkMessage
  simp only
  split
  · next h => exact ⟨nofun, fun hle => by omega⟩
  · next h => exact ⟨fun _ => by omega, fun _ => rfl⟩

namespace ViewState

theorem beginSave_of_inFlight {s : ViewState} (h : s.save = .inFlight) :
    s.beginSave = (.error .inFlight, s) :=
  if_pos h

theorem beginSave_of_ne {s : ViewState} (h : s.save ≠ .inFlight) :
    s.beginSave = (.ok (s.generation + 1), s.setIndicator .inFlight) :=
  if_neg h

end ViewState

namespace Session

variable {s t : Session}

/-- A request is refused without any effect, or it is accepted. -/
theorem requestSave_cases (message : String) (s : Session) :
    (∃ r, s.requestSave message = (.error r, s)) ∨
      checkMessage message s.settings.minMessageLength = .ok () ∧ s.state.save ≠ .inFlight ∧
        s.requestSave message = (.ok (), ((s.publish (s.state.setIndicator .inFlight)).post
          (.requestSave message)).scheduleClear) := by
  unfold requestSave
  cases hcheck : checkMessage message s.settings.minMessageLength with
  | error r => exact .inl ⟨r, rfl⟩
  | ok u =>
    by_cases hsave : s.state.save = .inFlight
    · rw [ViewState.beginSave_of_inFlight hsave]
      exact .inl ⟨.inFlight, rfl⟩
    · rw [ViewState.beginSave_of_ne hsave]
      exact .inr ⟨rfl, hsave, rfl⟩

theorem requestSave_eq_ok_iff : s.requestSave message = (.ok (), t) ↔
    max 1 s.settings.minMessageLength ≤ (trim message.toList).length ∧
      s.state.save ≠ .inFlight ∧
      t = ((s.publish (s.state.setIndicator .inFlight)).post
        (.requestSave message)).scheduleClear := by
  rw [← checkMessage_eq_ok_iff]
  constructor
  · intro h
    obtain ⟨r, hrefused⟩ | ⟨hcheck, hsave, haccepted⟩ := requestSave_cases message s
    · cases hrefused.symm.trans h
    · cases haccepted.symm.trans h
      exact ⟨hcheck, hsave, rfl⟩
  · rintro ⟨hcheck, hsave, rfl⟩
    rw [requestSave, hcheck, ViewState.beginSave_of_ne hsave]

theorem eq_of_requestSave_error (h : s.requestSave message = (.error r, t)) : t = s := by
  obtain ⟨r', hrefused⟩ | ⟨-, -, haccepted⟩ := requestSave_cases message s
  · exact (Prod.mk.inj (hrefused.symm.trans h)).2.symm
  · cases haccepted.symm.trans h

end Session
end PublishDesk
