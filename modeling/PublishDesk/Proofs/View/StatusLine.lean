import PublishDesk.View.Session

/-!
# The status line shows what it says

The pieces of a status line are such that none of them begins another (`label_inj`, `suffix_inj`,
`not_suffix_isPrefix`), so the line can be taken apart again, whatever text the link is: the lines
of two states agree only if the states show the same (`statusLine_eq_iff`). So a state that is
published because of a status, or because an indicator is cleared, is one with a new line
(`Session.visible`).
-/

namespace PublishDesk

/-- Of two texts that agree when something is added to each, one begins the other. -/
theorem isPrefix_or_of_append_eq {as bs xs ys : List Char} (h : as ++ xs = bs ++ ys) :
    as <+: bs ∨ bs <+: as :=
  List.prefix_or_prefix_of_prefix (List.prefix_append as xs) (h ▸ List.prefix_append bs ys)

theorem ServerIndicator.label_inj {i j : ServerIndicator} (h : i.label.toList <+: j.label.toList) :
    i = j := by
  cases i <;> cases j <;> revert h <;> decide

/-- What stands before the link. -/
def linkMark : List Char := " | approve here: ".toList

/-- The part of a status line that shows a link. -/
def linkPart : Option String → List Char
  | none => []
  | some link => linkMark ++ link.toList

namespace SaveIndicator

theorem suffix_inj {i j : SaveIndicator} (hi : i ≠ .idle)
    (h : i.suffix.toList <+: j.suffix.toList) : i = j := by
  cases i <;> cases j <;> revert hi h <;> decide

theorem not_suffix_isPrefix {i : SaveIndicator} (hi : i ≠ .idle) :
    ¬i.suffix.toList <+: linkMark ∧ ¬linkMark <+: i.suffix.toList := by
  cases i <;> revert hi <;> decide

theorem suffix_ne_nil {i : SaveIndicator} (hi : i ≠ .idle) : i.suffix.toList ≠ [] := by
  cases i <;> revert hi <;> decide

/-- A link is not taken for a save. -/
theorem linkPart_ne {i : SaveIndicator} (hi : i ≠ .idle) (link : Option String) (cs : List Char) :
    linkPart link ≠ i.suffix.toList ++ cs := by
  cases link with
  | none => exact fun h => suffix_ne_nil hi (List.append_eq_nil_iff.1 h.symm).1
  | some link =>
    intro h
    obtain ⟨hsuffix, hmark⟩ := not_suffix_isPrefix hi
    exact (isPrefix_or_of_append_eq h).elim hmark hsuffix

end SaveIndicator

theorem linkPart_inj {l m : Option String} (h : linkPart l = linkPart m) : l = m := by
  cases l with
  | none =>
    cases m with
    | none => rfl
    | some link => exact absurd (List.append_eq_nil_iff.1 h.symm).1 (by decide)
  | some link =>
    cases m with
    | none => exact absurd (List.append_eq_nil_iff.1 h).1 (by decide)
    | some link' => rw [String.toList_inj.1 (List.append_cancel_left h)]

namespace ViewState

variable {s t : ViewState}

theorem toList_statusLine (s : ViewState) : s.statusLine.toList = "Status: ".toList ++
    (s.server.label.toList ++ (s.save.suffix.toList ++ linkPart s.reviewLink)) := by
  obtain ⟨link, hline, hlink⟩ : ∃ link : String,
      s.statusLine = "Status: " ++ s.server.label ++ s.save.suffix ++ link ∧
        link.toList = linkPart s.reviewLink := by
    refine ⟨_, rfl, ?_⟩
    cases s.reviewLink with
    | none => rfl
    | some link => exact String.toList_append
  rw [hline, ← hlink, String.toList_append, String.toList_append, String.toList_append,
    List.append_assoc, List.append_assoc]

/-- Taken apart from the left, two equal lines have the same pieces. -/
theorem eq_of_statusLine_eq (h : s.statusLine = t.statusLine) :
    s.server = t.server ∧ s.save = t.save ∧ s.reviewLink = t.reviewLink := by
  have h := congrArg String.toList h
  rw [toList_statusLine, toList_statusLine] at h
  have h := List.append_cancel_left h
  have hserver : s.server = t.server := by
    obtain h | h := isPrefix_or_of_append_eq h
    · exact ServerIndicator.label_inj h
    · exact (ServerIndicator.label_inj h).symm
  rw [hserver] at h
  have h := List.append_cancel_left h
  have hsave : s.save = t.save := by
    by_cases hs : s.save = .idle
    · by_cases ht : t.save = .idle
      · rw [hs, ht]
      · rw [hs] at h
        exact (SaveIndicator.linkPart_ne ht _ _ h).elim
    · by_cases ht : t.save = .idle
      · rw [ht] at h
        exact (SaveIndicator.linkPart_ne hs _ _ h.symm).elim
      · obtain h | h := isPrefix_or_of_append_eq h
        · exact SaveIndicator.suffix_inj hs h
        · exact (SaveIndicator.suffix_inj ht h).symm
  rw [hsave] at h
  exact ⟨hserver, hsave, linkPart_inj (List.append_cancel_left h)⟩

theorem statusLine_eq_iff : s.statusLine = t.statusLine ↔
    s.server = t.server ∧ s.save = t.save ∧ s.reviewLink = t.reviewLink := by
  refine ⟨eq_of_statusLine_eq, ?_⟩
  rintro ⟨hserver, hsave, hlink⟩
  rw [statusLine, statusLine, hserver, hsave, hlink]

/-- A status makes no difference if and only if none can be seen. -/
theorem sameStatus_applyStatus (s : ViewState) (status : HostStatus) :
    s.sameStatus (s.applyStatus status) ↔ (s.applyStatus status).statusLine = s.statusLine := by
  rw [@eq_comm _ (s.applyStatus status).statusLine, statusLine_eq_iff, sameStatus,
    Bool.and_eq_true, beq_iff_eq, beq_iff_eq]
  exact ⟨fun ⟨hserver, hlink⟩ => ⟨hserver, rfl, hlink⟩, fun ⟨hserver, _, hlink⟩ => ⟨hserver, hlink⟩⟩

theorem applyStatus_eq_self {status : HostStatus} (h : s.sameStatus (s.applyStatus status)) :
    s.applyStatus status = s := by
  rw [sameStatus, Bool.and_eq_true, beq_iff_eq, beq_iff_eq] at h
  change { s with
    server := (s.applyStatus status).server
    reviewLink := (s.applyStatus status).reviewLink } = s
  rw [← h.1, ← h.2]

/-- An indicator can be cleared if and only if that can be seen. -/
theorem isClearable_iff (s : ViewState) (g : UInt64) :
    s.isClearable g ↔ (s.clear g).statusLine ≠ s.statusLine := by
  rw [clear]
  split
  · next h =>
    have hsave : s.save ≠ .idle := by
      rw [isClearable, Bool.and_eq_true, bne_iff_ne] at h
      exact h.2
    exact ⟨fun _ heq => hsave (statusLine_eq_iff.1 heq).2.1.symm, fun _ => h⟩
  · next h => exact ⟨fun h' => absurd h' h, fun h' => absurd rfl h'⟩

end ViewState

namespace Session

/-- How often a state is published when a session goes over to it because it can be seen. -/
def publications (s : Session) (state : ViewState) : Nat :=
  if state.statusLine = s.state.statusLine then 0 else 1

/-- What can be seen of the state of a session, and what is told to those who watch it. -/
structure Visible (s : Session) : Prop where
  line : ∀ t : ViewState, s.state.statusLine = t.statusLine ↔
    s.state.server = t.server ∧ s.state.save = t.save ∧ s.state.reviewLink = t.reviewLink
  status : ∀ status, s.state.sameStatus (s.state.applyStatus status) = false ↔
    (s.state.applyStatus status).statusLine ≠ s.state.statusLine
  cleared : ∀ g, s.state.isClearable g = true ↔
    (s.state.clear g).statusLine ≠ s.state.statusLine
  /-- A status that arrives is published if and only if it can be seen. -/
  tells_status : ∀ status, (s.handle (.pong status)).state = s.state.applyStatus status ∧
    (s.handle (.pong status)).published = s.published + s.publications (s.state.applyStatus status)
  /-- So is an indicator that is cleared when its time is over. -/
  tells_cleared : ∀ g, (s.ring (.clear g)).state = s.state.clear g ∧
    (s.ring (.clear g)).published = s.published + s.publications (s.state.clear g)

theorem handle_pong (s : Session) (status : HostStatus) :
    (s.handle (.pong status)).state = s.state.applyStatus status ∧
      (s.handle (.pong status)).published =
        s.published + s.publications (s.state.applyStatus status) := by
  have hsame := s.state.sameStatus_applyStatus status
  rw [handle, publications]
  split
  · next h =>
    rw [if_pos (hsame.1 h), ViewState.applyStatus_eq_self h]
    exact ⟨rfl, rfl⟩
  · next h =>
    rw [if_neg fun heq => h (hsame.2 heq)]
    exact ⟨rfl, rfl⟩

theorem ring_clear_published (s : Session) (g : UInt64) :
    (s.ring (.clear g)).state = s.state.clear g ∧
      (s.ring (.clear g)).published = s.published + s.publications (s.state.clear g) := by
  have hclearable := s.state.isClearable_iff g
  rw [ring, publications]
  split
  · next h =>
    rw [if_neg (hclearable.1 h)]
    exact ⟨rfl, rfl⟩
  · next h =>
    rw [if_pos (Decidable.not_not.1 fun hne => h (hclearable.2 hne)), ViewState.clear, if_neg h]
    exact ⟨rfl, rfl⟩

/-- The line of a state says what can be seen of it, and those who watch are told of a status or of
an indicator that is cleared exactly when there is a new line. -/
theorem visible (s : Session) : Visible s where
  line _ := ViewState.statusLine_eq_iff
  status status := by
    rw [← Bool.not_eq_true, ne_eq, s.state.sameStatus_applyStatus]
  cleared := s.state.isClearable_iff
  tells_status := s.handle_pong
  tells_cleared := s.ring_clear_published

end Session
end PublishDesk
