import PublishDesk.Proofs.Cancellation.Entries
import PublishDesk.Proofs.Cancellation.Nesting

/-!
# How observers are run

`history_disciplined` says how the calls and the observers of a run behave, however they are nested.
It is read off what a moment of the run keeps (`Sound`), when nothing is owed any more.
-/

namespace PublishDesk.Cancellation

/-- What holds of a run at any moment. -/
structure Sound (m : Moment) : Prop where
  standing : ∀ f, Standing m.past f m.families[f]?
  told : Told m.past
  grounded : Grounded m.past
  owed : ∀ a ∈ m.rest, a.Owed m.past
  dues : Dues m.past m.ledger
  fires : Fires m.past m.ledger

namespace Sound

variable {m m' : Moment} {new owed : List Act}

theorem start (program : List Operation) : Sound { tasks := program.map .perform } := by
  have hrest : Moment.rest { tasks := program.map .perform } = [] := Moment.owed_perform program
  have hledger : Moment.ledger { tasks := program.map .perform } = [] := hrest
  refine ⟨fun f => ⟨List.not_mem_nil, List.not_mem_nil⟩, told_nil, fun i a ha => ?_,
    fun a ha => ?_, fun k => ?_, fun c f hc => ?_⟩
  · cases ha
  · rw [hrest] at ha
    cases ha
  · rw [hledger]
    rfl
  · cases hc

theorem advance (s : Sound m) (htold : Told new) (hpast : m'.past = m.past ++ new)
    (hrest : m.rest = new ++ m'.rest) (hfamilies : m'.families = m.families) : Sound m' := by
  have hledger : m'.ledger = m.ledger := by
    rw [Moment.ledger, hpast, List.append_assoc, ← hrest]
    rfl
  have howed : ∀ a ∈ new, a.Owed m.past := fun a ha =>
    s.owed a (hrest ▸ List.mem_append_left _ ha)
  have hnot : ∀ a ∈ new, a.isCall = false := fun a ha => (howed a ha).not_isCall
  refine ⟨fun f => ?_, ?_, ?_, fun a ha => ?_, fun k => ?_, fun c f hc hfirst => ?_⟩
  · rw [hfamilies, hpast]
    exact (s.standing f).append (fun h => by cases hnot _ h) (fun h => by cases hnot _ h)
  · rw [hpast]
    exact s.told.append htold
  · rw [hpast]
    exact s.grounded.append fun j a ha => (howed a (List.mem_of_getElem? ha)).append.grounded
  · rw [hpast]
    exact (s.owed a (hrest ▸ List.mem_append_right _ ha)).append
  · rw [hledger, hpast, due_append_of_not_isCall hnot]
    exact s.dues k
  · rw [hpast] at hc hfirst ⊢
    rcases Nat.lt_or_ge c m.past.length with hlt | hge
    · rw [List.getElem?_append_left hlt] at hc
      rw [List.take_append_of_le_length (Nat.le_of_lt hlt)] at hfirst ⊢
      rw [hledger]
      exact s.fires c f hc hfirst
    · rw [List.getElem?_append_right hge] at hc
      cases hnot _ (List.mem_of_getElem? hc)

theorem create (s : Sound m) (hpast : m'.past = m.past) (hrest : m'.rest = m.rest)
    (hfamilies : m'.families = m.families ++ [some []]) : Sound m' := by
  have hledger : m'.ledger = m.ledger := by rw [Moment.ledger, hpast, hrest, Moment.ledger]
  refine ⟨fun f => ?_, hpast ▸ s.told, hpast ▸ s.grounded, ?_, ?_, ?_⟩
  · have hstanding := s.standing f
    rw [hfamilies, hpast]
    rcases Nat.lt_trichotomy f m.families.length with hlt | rfl | hgt
    · rwa [List.getElem?_append_left hlt]
    · rw [List.getElem?_eq_none (Nat.le_refl _)] at hstanding
      rw [List.getElem?_concat_length]
      exact ⟨hstanding.1, (places_eq_nil hstanding.2).symm⟩
    · rw [List.getElem?_eq_none (Nat.le_of_lt hgt)] at hstanding
      rwa [List.getElem?_eq_none (by rwa [List.length_append])]
  · rw [hpast, hrest]
    exact s.owed
  · rw [hpast, hledger]
    exact s.dues
  · rw [hpast, hledger]
    exact s.fires

theorem enter (s : Sound m)
    (hentry : Moment.Entry m.past.length m.families new owed m'.families)
    (hpast : m'.past = m.past ++ new) (hrest : m'.rest = owed ++ m.rest) : Sound m' := by
  have hledger : m'.ledger = m.past ++ (new ++ owed) ++ m.rest := by
    rw [Moment.ledger, hpast, hrest]
    simp only [List.append_assoc]
  refine ⟨?_, ?_, ?_, fun a ha => ?_, ?_, ?_⟩
  · rw [hpast]
    exact standing_entry hentry s.standing
  · rw [hpast]
    exact s.told.append (told_entry hentry)
  · rw [hpast]
    exact s.grounded.append (grounded_entry hentry s.standing)
  · rw [hpast]
    rw [hrest] at ha
    rcases List.mem_append.1 ha with ha | ha
    · exact owed_entry hentry s.standing ha
    · exact (s.owed a ha).append
  · rw [hpast, hledger]
    exact dues_entry hentry s.standing s.owed s.dues
  · rw [hpast, hledger]
    exact fires_entry hentry s.standing s.grounded s.owed s.fires

theorem step (s : Sound m) : Sound m.step := by
  cases m.effect_step with
  | advance htold hpast hrest hfamilies => exact s.advance htold hpast hrest hfamilies
  | create hpast hrest hfamilies => exact s.create hpast hrest hfamilies
  | enter hentry hpast hrest => exact s.enter hentry hpast hrest

end Sound

/-- How the calls and the observers of a run behave. -/
structure Disciplined (h : List Act) : Prop where
  /-- What a call answers is shown at once. -/
  told : Told h
  /-- What an observer does is over before the observer ends, and a call returns after all that it
  has run. -/
  nested : Nested h
  /-- A look sees whether the family has been cancelled. -/
  looks : ∀ (i f : Nat) (b : Bool), h[i]? = some (.looks f b) → (b = true ↔ .cancels f ∈ h.take i)
  /-- A family that has been cancelled stays so. -/
  stays : ∀ (i j f : Nat) (b : Bool), i ≤ j → h[i]? = some (.looks f true) →
    h[j]? = some (.looks f b) → b = true
  /-- A call to cancel returns once, and tells whether it is the first on its family. -/
  cancels : ∀ k f : Nat, h[k]? = some (.cancels f) →
    h.filter (Act.isOf k) = [.answers k f (decide (.cancels f ∉ h.take k))]
  /-- An observer that is registered before its family is cancelled runs when that happens, once. -/
  early : ∀ k f : Nat, h[k]? = some (.observes f) → .cancels f ∉ h.take k →
    h.filter (Act.isOf k) = .leaves k f :: if .cancels f ∈ h then life f k else []
  /-- One that is registered later runs once, and ends before its own call returns. -/
  late : ∀ k f : Nat, h[k]? = some (.observes f) → .cancels f ∈ h.take k →
    h.filter (Act.isOf k) = life f k ++ [.leaves k f]
  /-- What a call brings comes after the call. -/
  after : ∀ (i k : Nat) (a : Act), h[i]? = some a → a.call = some k →
    k < i ∧ ∃ f, h[k]? = some (.cancels f) ∨ h[k]? = some (.observes f)
  /-- The observers that wait run one after the other, in the order in which they were registered,
  before the first call to cancel returns. -/
  order : Fires h h
  /-- An observer sees that its family is cancelled, and so does all that comes later. -/
  sees : ∀ (i j k f : Nat) (b : Bool), i < j → h[i]? = some (.starts k f) →
    h[j]? = some (.looks f b) → b = true

section Disciplined

variable {h : List Act}

theorem Grounded.after (hg : Grounded h) {i k : Nat} {a : Act} (ha : h[i]? = some a)
    (hk : a.call = some k) :
    k < i ∧ ∃ f, h[k]? = some (.cancels f) ∨ h[k]? = some (.observes f) := by
  have hcause := hg i a ha
  have hplace {b : Act} (hb : (h.take i)[k]? = some b) : k < i ∧ h[k]? = some b := by
    obtain ⟨hlt, _⟩ := List.getElem?_eq_some_iff.1 hb
    have hki : k < i := Nat.lt_of_lt_of_le hlt (List.length_take_le i h)
    rw [List.getElem?_take_of_lt hki] at hb
    exact ⟨hki, hb⟩
  cases a with
  | looks | cancels | observes | shows => cases hk
  | answers k' f b =>
    obtain rfl := Option.some.inj hk
    exact ⟨(hplace hcause).1, f, .inl (hplace hcause).2⟩
  | leaves k' f =>
    obtain rfl := Option.some.inj hk
    exact ⟨(hplace hcause).1, f, .inr (hplace hcause).2⟩
  | starts k' f | ends k' f =>
    obtain rfl := Option.some.inj hk
    exact ⟨(hplace hcause.1).1, f, .inr (hplace hcause.1).2⟩

theorem Grounded.looks_of_cancels (hg : Grounded h) {i j f : Nat} {b : Bool} (hij : i ≤ j)
    (hf : .cancels f ∈ h.take i) (hb : h[j]? = some (.looks f b)) : b = true :=
  (hg j _ hb).2 (List.take_subset_take_left h hij hf)

theorem disciplined_of (htold : Told h) (hnested : Nested h) (hg : Grounded h) (hdues : Dues h h)
    (hfires : Fires h h) : Disciplined h where
  told := htold
  nested := hnested
  looks i _ _ hi := hg i _ hi
  stays i _ _ _ hij hi hj := hg.looks_of_cancels hij ((hg i _ hi).1 rfl) hj
  cancels k _ hk := (hdues k).trans (due_of_cancels hk)
  early k _ hk hf := (hdues k).trans (due_of_early hk hf)
  late k _ hk hf := (hdues k).trans (due_of_late hk hf)
  after _ _ _ ha hk := hg.after ha hk
  order := hfires
  sees i _ _ _ _ hij hi hj := hg.looks_of_cancels (Nat.le_of_lt hij) (hg i _ hi).2 hj

end Disciplined

/-- Whatever a program and its observers do, the calls of its run are disciplined, and what is shown
on the way are the events of the run. -/
theorem history_disciplined (program : List Operation) :
    Disciplined (history program) ∧
      (history program).flatMap Act.events = (run {} program).2 := by
  have hsound := Moment.keeps_finish (p := Sound) (fun _ s => s.step) (Sound.start program)
  have hledger : (Moment.finish { tasks := program.map .perform }).ledger = history program := by
    rw [Moment.ledger, Moment.rest, Moment.tasks_finish]
    exact List.append_nil _
  have hdues := hsound.dues
  have hfires := hsound.fires
  rw [hledger] at hdues hfires
  exact ⟨disciplined_of hsound.told (nested_history program) hsound.grounded hdues hfires,
    events_history program⟩

end PublishDesk.Cancellation
