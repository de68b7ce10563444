import PublishDesk.Proofs.Host.DeskRuns

/-!
# The line before the working tree

The jobs of a crew form a line: the job that has the working tree, the jobs that wait for it, and
the jobs that have not asked for it yet. They come in the order in which they have been started,
since each of them asks in its first turn (`Crew.InLine`). In a turn the first job that is ready
moves up, or leaves the line (`Line.Goes`, `Crew.InLine.turn`), so the turns come to an end
(`Crew.InLine.settle`).
-/

namespace PublishDesk

open Job

variable {α : Type}

/-- The number of the job that has the working tree, and the numbers of those that wait for it and
of those that have not asked for it yet. -/
structure Line where
  holder : Option Nat := none
  waiting : List Nat := []
  fresh : List Nat := []

namespace Line

def all (l : Line) : List Nat := l.holder.toList ++ l.waiting ++ l.fresh

/-- How a turn of a job, in which it makes the steps of the list, changes the line. -/
inductive Goes (i : Nat) (steps : List Made) : (ended : Bool) → Line → Line → Prop
  | release {waiting fresh : List Nat} :
    Goes i steps true ⟨some i, waiting, fresh⟩ ⟨waiting.head?, waiting.tail, fresh⟩
  | stay {waiting fresh : List Nat} :
    Goes i steps false ⟨some i, waiting, fresh⟩ ⟨some i, waiting, fresh⟩
  | away {holder : Option Nat} {waiting fresh : List Nat} (hsteps : Job.commits steps = []) :
    Goes i steps true ⟨holder, waiting, i :: fresh⟩ ⟨holder, waiting, fresh⟩
  | through {fresh : List Nat} : Goes i steps true ⟨none, [], i :: fresh⟩ ⟨none, [], fresh⟩
  | take {fresh : List Nat} : Goes i steps false ⟨none, [], i :: fresh⟩ ⟨some i, [], fresh⟩
  | queue {h : Nat} {waiting fresh : List Nat} (hsteps : Job.commits steps = []) :
    Goes i steps false ⟨some h, waiting, i :: fresh⟩ ⟨some h, waiting ++ [i], fresh⟩

variable {i : Nat} {steps : List Made} {ended : Bool} {l l' : Line}

theorem Goes.mem_all (h : Goes i steps ended l l') : i ∈ l.all := by
  cases h <;> simp [all]

theorem Goes.all_of_false (h : Goes i steps false l l') : l'.all = l.all := by
  cases h <;> simp [all]

theorem Goes.all_of_true (h : Goes i steps true l l') (hl : l.all.Nodup) :
    l'.all = l.all.filter (· != i) := by
  have hfilter (a b : List Nat) (hab : (a ++ i :: b).Nodup) :
      a ++ b = (a ++ i :: b).filter (· != i) := by
    have herase := hab.erase_eq_filter i
    have hi : i ∉ a := fun hi => (List.nodup_append.1 hab).2.2 i hi i (.head _) rfl
    rw [← herase, List.erase_append_right _ hi, List.erase_cons_head]
  cases h with
  | @release waiting fresh =>
    have hall : (⟨waiting.head?, waiting.tail, fresh⟩ : Line).all = waiting ++ fresh := by
      cases waiting <;> rfl
    rw [hall]
    exact hfilter [] (waiting ++ fresh) hl
  | away => exact hfilter _ _ hl
  | through => exact hfilter [] _ hl

theorem Goes.fresh (h : Goes i steps ended l l') :
    l.holder = some i ∧ l'.fresh = l.fresh ∨ l.fresh = i :: l'.fresh := by
  cases h with
  | release | stay => exact .inl ⟨rfl, rfl⟩
  | away | through | take | queue => exact .inr rfl

/-- Only a job that has not asked yet joins those that wait. -/
theorem Goes.waiting (h : Goes i steps ended l l') {n : Nat} (hn : n ∈ l'.waiting) :
    n ∈ l.waiting ∨ n = i ∧ l.fresh = i :: l'.fresh := by
  cases h with
  | release => exact .inl (List.mem_of_mem_tail hn)
  | stay | away => exact .inl hn
  | through | take => cases hn
  | queue =>
    obtain hn | hn := List.mem_append.1 hn
    · exact .inl hn
    · exact .inr ⟨List.mem_singleton.1 hn, rfl⟩

theorem Goes.behind (h : Goes i steps ended l l') :
    l'.waiting ++ l'.fresh ⊆ l.waiting ++ l.fresh := by
  intro n hn
  rw [List.mem_append] at hn ⊢
  obtain hn | hn := hn
  · exact (h.waiting hn).imp_right fun ⟨hni, hfresh⟩ => hfresh ▸ hni ▸ .head _
  · exact .inr (h.fresh.elim (fun hfresh => hfresh.2 ▸ hn) fun hfresh => hfresh ▸ .tail _ hn)

theorem Goes.idle (h : Goes i steps ended l l') (hl : l.holder = none → l.waiting = [])
    (hnone : l'.holder = none) : l'.waiting = [] := by
  cases h with
  | @release waiting => cases waiting <;> first | rfl | cases hnone
  | away => exact hl hnone
  | through => rfl
  | stay | take | queue => cases hnone

theorem Goes.sublist (h : Goes i steps ended l l') (hl : l.all.Nodup) : l'.all.Sublist l.all := by
  cases ended with
  | true => exact h.all_of_true hl ▸ List.filter_sublist
  | false => exact h.all_of_false ▸ .refl _

/-- The job that has the working tree keeps it while it stays in line. -/
theorem Goes.holder (h : Goes i steps ended l l') (hl : l.all.Nodup) {n : Nat} (hn : n ∈ l'.all)
    (hholder : l.holder = some n) : l'.holder = some n := by
  cases h with
  | @release waiting fresh =>
    obtain rfl := Option.some.inj hholder
    have hgoes : Goes i steps true ⟨some i, waiting, fresh⟩ ⟨waiting.head?, waiting.tail, fresh⟩ :=
      .release
    have hmem := hgoes.all_of_true hl ▸ hn
    simp at hmem
  | stay | away | queue => exact hholder
  | through | take => cases hholder

/-- A job that commits is ahead of all others. -/
theorem Goes.ahead (h : Goes i steps ended l l') (hl : l.all.Pairwise (· < ·))
    (hsteps : Job.commits steps ≠ []) {n : Nat} (hn : n ∈ l'.all) :
    i < n ∨ i = n ∧ l'.holder = some n := by
  cases h with
  | @release waiting fresh =>
    have hall : n ∈ waiting ++ fresh := by cases waiting <;> exact hn
    exact .inl ((List.pairwise_cons.1 hl).1 n hall)
  | stay | take =>
    obtain rfl | hn := List.mem_cons.1 hn
    · exact .inr ⟨rfl, rfl⟩
    · exact .inl ((List.pairwise_cons.1 hl).1 n hn)
  | through => exact .inl ((List.pairwise_cons.1 hl).1 n hn)
  | away h | queue h => exact absurd h hsteps

theorem Goes.countP (h : Goes i steps ended l l') (hl : l.all.Nodup) (p : Nat → Bool) :
    l.all.countP p = l'.all.countP p + (ended && p i).toNat := by
  cases ended with
  | true =>
    rw [h.all_of_true hl, ← hl.erase_eq_filter, (List.perm_cons_erase h.mem_all).countP_eq,
      List.countP_cons]
    cases p i <;> rfl
  | false => rw [h.all_of_false]; rfl

theorem Goes.length (h : Goes i steps ended l l') (hl : l.all.Nodup) :
    l.all.length = l'.all.length + ended.toNat := by
  simpa using h.countP hl fun _ => true

theorem not_mem_of_holder (hl : l.all.Nodup) (hi : l.holder = some i) :
    i ∉ l.waiting ++ l.fresh := by
  rw [all, hi, List.append_assoc] at hl
  exact (List.nodup_cons.1 hl).1

theorem Goes.not_mem_fresh (h : Goes i steps ended l l') (hl : l.all.Nodup) : i ∉ l'.fresh := by
  obtain ⟨hi, heq⟩ | heq := h.fresh
  · rw [heq]
    exact fun hmem => not_mem_of_holder hl hi (List.mem_append_right _ hmem)
  · have hfresh := (List.nodup_append.1 hl).2.1
    rw [heq] at hfresh
    exact (List.nodup_cons.1 hfresh).1

end Line

/-- Whether a job has ended. If it has not, it has the working tree or waits for it. -/
def Desk.Halt.Fits (ended : Bool) : Desk.Halt α → Prop
  | .ended _ => ended = true
  | .waiting rest => ended = false ∧ rest.Keeps .inside

namespace Crew

/-- The jobs of a crew stand in line. -/
structure InLine (l : Line) (c : Crew α) : Prop where
  numbers : c.tasks.map (·.number) = l.all
  increasing : l.all.Pairwise (· < ·)
  known : ∀ n ∈ c.ready ++ c.desk.atGate ++ l.all, n < c.started
  held : c.desk.lock.held = l.holder.isSome
  waiting : c.desk.lock.waiting = l.waiting
  idle : l.holder = none → l.waiting = []
  /-- The jobs that have not asked for the tree are ready, in order. -/
  fresh : c.ready.filter (· ∈ l.fresh) = l.fresh
  /-- The jobs that wait for the tree are not ready. -/
  parked : ∀ n ∈ c.ready, n ∉ l.waiting
  gate : ∀ n ∈ c.desk.atGate, n ∉ l.waiting ++ l.fresh
  keeps : ∀ t ∈ c.tasks, t.rest.Keeps (if t.number ∈ l.fresh then .before else .inside)

variable {c c' : Crew α} {l l' : Line} {i : Nat}

theorem InLine.nodup (H : InLine l c) : l.all.Nodup := H.increasing.imp Nat.ne_of_lt

/-! ## Turns -/

/-- The steps that are made in the next turn, with the number of the job that makes them. -/
def turnSteps (c : Crew α) : List (Nat × Made) :=
  match c.ready with
  | [] => []
  | number :: _ => match c.tasks.find? (·.number == number) with
    | none => []
    | some t => (c.desk.steps number t.passed t.rest).map (number, ·)

/-- A turn is taken by the first job that is ready, unless it has ended. -/
theorem turn?_cases (h : c.turn? = some c') : ∃ i ready, c.ready = i :: ready ∧
    (i ∉ c.tasks.map (·.number) ∧ c.turnSteps = [] ∧ c' = { c with ready := ready } ∨
      ∃ t ∈ c.tasks, t.number = i ∧
        c.turnSteps = (c.desk.steps i t.passed t.rest).map (i, ·) ∧
        c' = { record i (c.desk.work i t.passed t.rest) { c with ready := ready } with
          ready := ready ++ (c.desk.work i t.passed t.rest).woken }) := by
  unfold turn? at h
  split at h
  · cases h
  · next i ready hready =>
    refine ⟨i, ready, hready, ?_⟩
    rw [turnSteps, hready]
    dsimp only at h ⊢
    cases hfind : c.tasks.find? (·.number == i) with
    | none =>
      rw [hfind] at h
      refine .inl ⟨fun hi => ?_, rfl, (Option.some.inj h).symm⟩
      obtain ⟨t, ht, hti⟩ := List.mem_map.1 hi
      simpa [hti] using List.find?_eq_none.1 hfind t ht
    | some t =>
      rw [hfind] at h
      refine .inr ⟨t, List.mem_of_find?_eq_some hfind, ?_, rfl, (Option.some.inj h).symm⟩
      simpa using List.find?_some hfind

theorem InLine.drop (H : InLine l c) {ready : List Nat} (hready : c.ready = i :: ready)
    (hi : i ∉ c.tasks.map (·.number)) : InLine l { c with ready := ready } where
  numbers := H.numbers
  increasing := H.increasing
  known n hn := by
    refine H.known n ?_
    rw [hready]
    exact .tail _ hn
  held := H.held
  waiting := H.waiting
  idle := H.idle
  fresh := by
    have hfresh := H.fresh
    have hnot : i ∉ l.fresh := fun hmem =>
      hi (H.numbers ▸ List.mem_append_right _ hmem)
    rwa [hready, List.filter_cons_of_neg (by simpa using hnot)] at hfresh
  parked n hn := H.parked n (hready ▸ .tail _ hn)
  gate := H.gate
  keeps := H.keeps

theorem record_numbers {r : Desk.Run α} {ended : Bool} (hhalt : r.halt.Fits ended) :
    (record i r c).tasks.map (·.number) =
      if ended then (c.tasks.map (·.number)).filter (· != i) else c.tasks.map (·.number) := by
  unfold record
  split
  · next a hended =>
    rw [hended] at hhalt
    rw [if_pos (show ended = true from hhalt), List.filter_map]
    rfl
  · next rest hrest =>
    rw [hrest] at hhalt
    rw [hhalt.1, List.map_map]
    refine List.map_congr_left fun t _ => ?_
    dsimp only [Function.comp]
    split <;> rfl

/-- A job that has not asked yet is ready only once. -/
theorem InLine.ready_fresh (H : InLine l c) {ready : List Nat} (hready : c.ready = i :: ready)
    {steps : List Made} {ended : Bool} (h : l.Goes i steps ended l') :
    (l.fresh = i :: l'.fresh → i ∉ ready) ∧ ready.filter (· ∈ l'.fresh) = l'.fresh := by
  have hi := h.not_mem_fresh H.nodup
  have hfresh := H.fresh
  rw [hready] at hfresh
  obtain ⟨-, heq⟩ | heq := h.fresh
  · rw [heq] at hi ⊢
    rw [List.filter_cons_of_neg (by simpa using hi)] at hfresh
    exact ⟨fun hcons => absurd (hcons ▸ .head _) hi, hfresh⟩
  · rw [heq, List.filter_cons_of_pos (by simp)] at hfresh
    have htail := (List.cons.inj hfresh).2
    have hnot : i ∉ ready := fun hmem => hi (htail ▸ List.mem_filter.2 ⟨hmem, by simp⟩)
    refine ⟨fun _ => hnot, (List.filter_congr fun n hn => ?_).trans htail⟩
    have hne : n ≠ i := fun hni => hnot (hni ▸ hn)
    simp [hne]

/-- How a run that has come to a halt has changed the line. -/
structure Moved (i : Nat) (steps : List Made) (c : Crew α) (r : Desk.Run α) (ended : Bool)
    (l l' : Line) : Prop where
  goes : l.Goes i steps ended l'
  halt : r.halt.Fits ended
  held : r.desk.lock.held = l'.holder.isSome
  waiting : r.desk.lock.waiting = l'.waiting
  gate : r.desk.atGate = c.desk.atGate ∨
    r.desk.atGate = c.desk.atGate ++ [i] ∧ l'.holder = some i
  woken : ∀ n ∈ r.woken, l'.holder = some n
  /-- Only a job that ends wakes another one. -/
  woken_le : r.woken.length ≤ ended.toNat

variable {ready : List Nat} {steps : List Made} {ended : Bool} {r : Desk.Run α}

theorem Moved.mem_atGate (h : Moved i steps c r ended l l') {n : Nat} (hn : n ∈ r.desk.atGate) :
    n ∈ c.desk.atGate ∨ n = i ∧ l'.holder = some i := by
  obtain hgate | ⟨hgate, hi⟩ := h.gate
  · exact .inl (hgate ▸ hn)
  · exact (List.mem_append.1 (hgate ▸ hn)).imp_right fun hn => ⟨List.mem_singleton.1 hn, hi⟩

theorem InLine.numbers_record (H : InLine l c) (h : Moved i steps c r ended l l') :
    (Crew.record i r { c with ready := ready }).tasks.map (·.number) = l'.all := by
  refine (record_numbers h.halt).trans ?_
  cases ended with
  | true => rw [h.goes.all_of_true H.nodup, ← H.numbers]; rfl
  | false => rw [h.goes.all_of_false, ← H.numbers]; rfl

/-- What is left of a job that has had its turn is done inside; the others are as they were. -/
theorem InLine.keeps_record (H : InLine l c) (h : Moved i steps c r ended l l') {t : Task α}
    (ht : t ∈ (Crew.record i r { c with ready := ready }).tasks) :
    t.rest.Keeps (if t.number ∈ l'.fresh then .before else .inside) := by
  obtain ⟨ht, hti⟩ | ⟨hti, hrest⟩ := mem_record_tasks ht
  · have hmem : t.number ∈ l'.fresh ↔ t.number ∈ l.fresh := by
      obtain ⟨-, heq⟩ | heq := h.goes.fresh
      · rw [heq]
      · simp [heq, hti]
    simpa only [hmem] using H.keeps t ht
  · have hhalt := h.halt
    rw [hrest] at hhalt
    rw [if_neg (hti ▸ h.goes.not_mem_fresh H.nodup)]
    exact hhalt.2

theorem InLine.record (H : InLine l c) (hready : c.ready = i :: ready)
    (h : Moved i steps c r ended l l') :
    InLine l' { record i r { c with ready := ready } with ready := ready ++ r.woken } := by
  have hsub := h.goes.sublist H.nodup
  have hincreasing := H.increasing.sublist hsub
  have hholder (n : Nat) (hn : l'.holder = some n) : n ∉ l'.waiting ++ l'.fresh :=
    Line.not_mem_of_holder (hincreasing.imp Nat.ne_of_lt) hn
  obtain ⟨honce, hfresh⟩ := H.ready_fresh hready h.goes
  have hknown (n : Nat) (hn : n ∈ l.all) : n < c.started := H.known n (List.mem_append_right _ hn)
  constructor
  case numbers => exact H.numbers_record h
  case increasing => exact hincreasing
  case known =>
    intro n hn
    dsimp only at hn ⊢
    rw [record_desk] at hn
    rw [record_started]
    simp only [List.mem_append] at hn
    obtain ((hn | hn) | hn) | hn := hn
    · exact H.known n (by simp [hready, hn])
    · exact hknown n (hsub.subset (by simp [Line.all, h.woken n hn]))
    · obtain hn | ⟨rfl, -⟩ := h.mem_atGate hn
      · exact H.known n (by simp [hn])
      · exact hknown n h.goes.mem_all
    · exact hknown n (hsub.subset hn)
  case held => rw [record_desk, h.held]
  case waiting => rw [record_desk, h.waiting]
  case idle => exact h.goes.idle H.idle
  case fresh =>
    dsimp only
    rw [List.filter_append, hfresh, List.append_right_eq_self]
    refine List.filter_eq_nil_iff.2 fun n hn hmem => ?_
    exact hholder n (h.woken n hn) (List.mem_append_right _ (by simpa using hmem))
  case parked =>
    -- A job that waits now has waited before, or has just had its only turn.
    intro n hn hmem
    change n ∈ ready ++ r.woken at hn
    rw [List.mem_append] at hn
    obtain hn | hn := hn
    · obtain hwaiting | ⟨rfl, heq⟩ := h.goes.waiting hmem
      · exact H.parked n (hready ▸ .tail _ hn) hwaiting
      · exact honce heq hn
    · exact hholder n (h.woken n hn) (List.mem_append_left _ hmem)
  case gate =>
    intro n hn hmem
    rw [record_desk] at hn
    obtain hn | ⟨rfl, hi⟩ := h.mem_atGate hn
    · exact H.gate n hn (h.goes.behind hmem)
    · exact hholder n hi hmem
  case keeps => exact fun t ht => H.keeps_record h ht

/-- Every turn brings the end of the turns nearer. -/
theorem InLine.measure_record (H : InLine l c) (hready : c.ready = i :: ready)
    (h : Moved i steps c r ended l l') :
    (ready ++ r.woken).length + (Crew.record i r { c with ready := ready }).tasks.length <
      c.ready.length + c.tasks.length := by
  have htasks : c.tasks.length = l.all.length := by rw [← H.numbers, List.length_map]
  have htasks' : (Crew.record i r { c with ready := ready }).tasks.length = l'.all.length := by
    rw [← H.numbers_record h, List.length_map]
  have hlength := h.goes.length H.nodup
  have hwoken := h.woken_le
  rw [List.length_append, hready, List.length_cons]
  omega

/-! ## What a run does to the line -/

theorem InLine.lock_eq (H : InLine l c) : c.desk.lock = ⟨l.holder.isSome, l.waiting⟩ := by
  rw [← H.held, ← H.waiting]

theorem InLine.moved_of_inside (H : InLine l c) (hi : l.holder = some i) (steps : List Made)
    (h : Desk.Outcome.Inside i c.desk r) : ∃ ended l', Moved i steps c r ended l l' := by
  obtain ⟨holder, waiting, fresh⟩ := l
  obtain rfl : holder = some i := hi
  have hlock := H.lock_eq
  cases h with
  | ended hlock' hgate =>
    refine ⟨true, _, .release, rfl, ?_, ?_, .inl hgate, ?_, ?_⟩
    all_goals
      simp only [hlock', hlock]
      cases waiting <;> simp [TreeLock.release]
  | held hrest hlock' hgate =>
    exact ⟨false, _, .stay, ⟨rfl, hrest⟩, by rw [hlock', hlock], by rw [hlock', hlock],
      .inr ⟨hgate, rfl⟩, nofun, Nat.le_refl 0⟩

theorem InLine.moved_of_before (H : InLine l c) {rest : List Nat} (hi : l.fresh = i :: rest)
    (h : Desk.Outcome.Before i c.desk steps r) : ∃ ended l', Moved i steps c r ended l l' := by
  obtain ⟨holder, waiting, fresh⟩ := l
  obtain rfl : fresh = i :: rest := hi
  have hlock := H.lock_eq
  cases h with
  | aside hsteps h =>
    cases h with
    | ended hlock' hgate =>
      refine ⟨true, _, .away hsteps, rfl, ?_, ?_, .inl (Desk.atGate_eq_of_gate hgate), nofun,
        Nat.zero_le 1⟩ <;> rw [hlock', hlock]
  | taken d' hfree hlock' hgate h =>
    obtain rfl : holder = none := by simpa [hlock] using hfree
    obtain rfl : waiting = [] := H.idle rfl
    have hlock' : d'.lock = ⟨true, []⟩ := by rw [hlock', hlock]
    have hgate := Desk.atGate_eq_of_gate hgate
    cases h with
    | ended hlock'' hgate' =>
      refine ⟨true, _, .through, rfl, ?_, ?_, .inl (hgate'.trans hgate), ?_, ?_⟩ <;>
        simp [hlock'', hlock', TreeLock.release]
    | held hrest hlock'' hgate' =>
      exact ⟨false, _, .take, ⟨rfl, hrest⟩, by rw [hlock'', hlock']; rfl, by rw [hlock'', hlock'],
        .inr ⟨hgate'.trans (by rw [hgate]), rfl⟩, nofun, Nat.le_refl 0⟩
  | queued hsteps hrest hheld hlock' hgate =>
    obtain ⟨h, rfl⟩ : ∃ h, holder = some h :=
      Option.isSome_iff_exists.1 (by simpa [hlock] using hheld)
    exact ⟨false, _, .queue hsteps, ⟨rfl, hrest⟩, by rw [hlock', hlock], by rw [hlock', hlock],
      .inl (Desk.atGate_eq_of_gate hgate), nofun, Nat.le_refl 0⟩

/-- A job that has its turn moves in the line. -/
theorem InLine.moved (H : InLine l c) {t : Task α} (ht : t ∈ c.tasks)
    (hready : c.ready = t.number :: ready) : ∃ ended l',
      Moved t.number (c.desk.steps t.number t.passed t.rest) c
        (c.desk.work t.number t.passed t.rest) ended l l' := by
  have hkeeps := H.keeps t ht
  split at hkeeps
  · next hmem =>
    have hfresh := H.fresh
    rw [hready, List.filter_cons_of_pos (by simpa using hmem)] at hfresh
    exact H.moved_of_before hfresh.symm (Desk.work_before hkeeps)
  · next hmem =>
    have hall : t.number ∈ l.all := H.numbers ▸ List.mem_map_of_mem ht
    have hwaiting : t.number ∉ l.waiting := H.parked _ (hready ▸ .head _)
    have hholder : l.holder = some t.number := by
      simpa [Line.all, hmem, hwaiting] using hall
    exact H.moved_of_inside hholder _ (Desk.work_inside hkeeps)

theorem InLine.turn (H : InLine l c) (h : c.turn? = some c') : ∃ l', InLine l' c' ∧
    c'.ready.length + c'.tasks.length < c.ready.length + c.tasks.length := by
  obtain ⟨i, ready, hready, ⟨hi, -, rfl⟩ | ⟨t, ht, rfl, -, rfl⟩⟩ := turn?_cases h
  · refine ⟨l, H.drop hready hi, ?_⟩
    simp [hready]
  · obtain ⟨ended, l', hmoved⟩ := H.moved ht hready
    exact ⟨l', H.record hready hmoved, H.measure_record hready hmoved⟩

theorem ready_of_turn? (h : c.turn? = none) : c.ready = [] := by
  unfold turn? at h
  split at h
  · next hready => exact hready
  · dsimp only at h
    split at h <;> cases h

theorem InLine.ready_turns (H : InLine l c) {fuel : Nat}
    (hfuel : c.ready.length + c.tasks.length ≤ fuel) : (c.turns fuel).ready = [] := by
  induction fuel generalizing c l with
  | zero =>
    have hready : c.ready.length = 0 := by omega
    exact List.eq_nil_of_length_eq_zero hready
  | succ fuel ih =>
    rw [turns]
    cases hturn : c.turn? with
    | none => exact ready_of_turn? hturn
    | some c' =>
      obtain ⟨l', H', hless⟩ := H.turn hturn
      exact ih H' (by omega)

/-- When a crew has settled, no job is ready any more. -/
theorem InLine.ready_settle (H : InLine l c) : c.settle.ready = [] := H.ready_turns (by omega)

/-! ## What else happens to a crew -/

theorem InLine.empty {d : Desk} (hlock : d.lock = {}) (hgate : d.gates = []) :
    InLine {} ({ desk := d } : Crew α) where
  numbers := rfl
  increasing := .nil
  known n hn := by
    have hnone : d.atGate = [] := by rw [Desk.atGate, hgate]; rfl
    simp [hnone, Line.all] at hn
  held := by rw [hlock]; rfl
  waiting := by rw [hlock]
  idle _ := rfl
  fresh := rfl
  parked _ hn := absurd hn List.not_mem_nil
  gate _ _ := List.not_mem_nil
  keeps _ ht := absurd ht List.not_mem_nil

theorem InLine.start (H : InLine l c) {job : Job α} (hjob : job.Keeps .before) :
    InLine { l with fresh := l.fresh ++ [c.started] } (c.start job) := by
  have hall : ({ l with fresh := l.fresh ++ [c.started] } : Line).all = l.all ++ [c.started] :=
    (List.append_assoc ..).symm
  have hlt (n : Nat) (hn : n ∈ c.ready ++ c.desk.atGate ++ l.all) : n ≠ c.started :=
    Nat.ne_of_lt (H.known n hn)
  constructor
  case numbers =>
    rw [Crew.start, List.map_append, H.numbers, hall]
    rfl
  case increasing =>
    rw [hall]
    refine List.pairwise_append.2 ⟨H.increasing, List.pairwise_singleton .., fun n hn m hm => ?_⟩
    rw [List.mem_singleton.1 hm]
    exact H.known n (List.mem_append_right _ hn)
  case known =>
    intro n hn
    rw [hall] at hn
    have hn : n ∈ c.ready ++ c.desk.atGate ++ l.all ∨ n = c.started := by
      simp only [Crew.start, List.mem_append, List.mem_singleton] at hn ⊢
      tauto
    obtain hn | rfl := hn
    · exact Nat.lt_succ_of_lt (H.known n hn)
    · exact Nat.lt_succ_self _
  case held => exact H.held
  case waiting => exact H.waiting
  case idle => exact H.idle
  case fresh =>
    have hold : c.ready.filter (· ∈ l.fresh ++ [c.started]) = l.fresh := by
      refine (List.filter_congr fun n hn => ?_).trans H.fresh
      simp [hlt n (by simp [hn])]
    rw [Crew.start, List.filter_append, hold]
    simp
  case parked =>
    intro n hn hmem
    obtain hn | hn := List.mem_append.1 hn
    · exact H.parked n hn hmem
    · exact hlt n (by simp [Line.all, hmem]) (List.mem_singleton.1 hn)
  case gate =>
    intro n hn hmem
    rw [← List.append_assoc] at hmem
    obtain hmem | hmem := List.mem_append.1 hmem
    · exact H.gate n hn hmem
    · exact hlt n (by simp [show n ∈ c.desk.atGate from hn]) (List.mem_singleton.1 hmem)
  case keeps =>
    intro t ht
    obtain ht | ht := List.mem_append.1 ht
    · have hne : t.number ≠ c.started :=
        hlt _ (List.mem_append_right _ (H.numbers ▸ List.mem_map_of_mem ht))
      simpa [hne] using H.keeps t ht
    · obtain rfl := List.mem_singleton.1 ht
      simpa using hjob

/-- What happens to the desk by itself, except for the lock and those at the gates, is of no
account. -/
theorem InLine.setDesk (H : InLine l c) {d : Desk} (hlock : d.lock = c.desk.lock)
    (hgate : ∀ n ∈ d.atGate, n ∈ c.desk.atGate) : InLine l { c with desk := d } where
  numbers := H.numbers
  increasing := H.increasing
  known n hn := by
    simp only [List.mem_append] at hn
    refine H.known n ?_
    simp only [List.mem_append]
    exact hn.imp_left (Or.imp_right (hgate n))
  held := hlock ▸ H.held
  waiting := hlock ▸ H.waiting
  idle := H.idle
  fresh := H.fresh
  parked := H.parked
  gate n hn := H.gate n (hgate n hn)
  keeps := H.keeps

theorem InLine.holdPushes (H : InLine l c) : InLine l c.holdPushes :=
  H.setDesk rfl fun _ hn => atGate_holdPushes c ▸ hn

theorem InLine.releasePush (H : InLine l c) (gate : Nat) : InLine l (c.releasePush gate) := by
  obtain ⟨gates, ⟨heq, hgate⟩ | ⟨number, heq, hperm⟩⟩ := c.releasePush_cases gate
  · exact heq ▸ H.setDesk rfl fun _ hn => hgate ▸ hn
  · have hmem (n : Nat) (hn : n ∈ Desk.atGate { c.desk with gates := gates }) :
        n ∈ c.desk.atGate := hperm.mem_iff.2 (.tail _ hn)
    have hself : number ∈ c.desk.atGate := hperm.mem_iff.2 (.head _)
    have hnumber : number ∉ l.waiting ++ l.fresh := H.gate number hself
    rw [List.mem_append, not_or] at hnumber
    obtain ⟨-, -, hnumbers⟩ := c.releasePush_kept gate
    have hdesk := H.setDesk (d := { c.desk with gates := gates }) rfl hmem
    rw [heq] at hnumbers ⊢
    refine { hdesk with numbers := ?_, known := ?_, fresh := ?_, parked := ?_, keeps := ?_ }
    · exact hnumbers.trans H.numbers
    · intro n hn
      refine H.known n ?_
      simp only [List.mem_append, List.mem_singleton] at hn ⊢
      obtain ((hn | rfl) | hn) | hn := hn
      · exact .inl (.inl hn)
      · exact .inl (.inr hself)
      · exact .inl (.inr (hmem n hn))
      · exact .inr hn
    · rw [List.filter_append, H.fresh]
      simpa using hnumber.2
    · intro n hn
      obtain hn | hn := List.mem_append.1 hn
      · exact H.parked n hn
      · exact List.mem_singleton.1 hn ▸ hnumber.1
    · intro t ht
      obtain ⟨u, hu, rfl⟩ := List.mem_map.1 ht
      have hkeeps := H.keeps u hu
      split <;> exact hkeeps

end Crew
end PublishDesk
