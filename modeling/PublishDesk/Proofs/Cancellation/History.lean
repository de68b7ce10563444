import PublishDesk.Cancellation

/-!
# What happens in a run

The events of a run do not say when a call begins and ends, or when an observer does. `history` says
this too: it is written down by a machine that takes the same steps with the calls that are under
way (`Moment.step`), and it shows the same events (`events_history`). Calls are known by their
places in the history, and an observer by the place of the call that registers it.
-/

namespace PublishDesk.Cancellation

/-- What happens to a family of tokens that share their state. -/
inductive Act where
  /-- Somebody asks whether the family is cancelled. -/
  | looks (family : Nat) (result : Bool)
  /-- Somebody calls to cancel the family. -/
  | cancels (family : Nat)
  /-- That call returns. -/
  | answers (call family : Nat) (result : Bool)
  /-- Somebody calls to register an observer. -/
  | observes (family : Nat)
  /-- That call returns. -/
  | leaves (call family : Nat)
  | starts (observer family : Nat)
  | ends (observer family : Nat)
  /-- Something is shown that has to do with no family. -/
  | shows (event : Event)
deriving DecidableEq, Repr

def Act.events : Act → List Event
  | .shows e => [e]
  | _ => []

/-- What is still to be done. -/
inductive Task where
  | perform (o : Operation)
  | run (observer family : Nat) (body : List Operation)
  | finish (observer family : Nat)
  | leave (call family : Nat)
  | answer (call family : Nat) (name : String) (result : Bool)

/-- The operations of a task. -/
def Task.program : Task → List Operation
  | .perform o => [o]
  | .run _ _ body => body
  | .finish _ _ | .leave _ _ => []
  | .answer _ _ name result => [.answer name result]

/-- How many steps a task takes at most, in thirds of a size. -/
def Task.size : Task → Nat
  | .perform o => 3 * o.size
  | .run _ _ body => 2 + 3 * programSize body
  | .finish _ _ | .leave _ _ | .answer _ _ _ _ => 1

/-- The observers of a family with their numbers; none are held once it has been cancelled. -/
abbrev Waiting := Option (List (Nat × List Operation))

/-- A run that has come to some point. -/
structure Moment where
  tokens : List Nat := []
  families : List Waiting := []
  tasks : List Task := []
  past : List Act := []

namespace Moment

def family (m : Moment) (token : Nat) : Nat := m.tokens.getD token m.families.length

def note (acts : List Act) (m : Moment) : Moment := { m with past := m.past ++ acts }

/-- Do something before all else. -/
def prepare (ts : List Task) (m : Moment) : Moment := { m with tasks := ts ++ m.tasks }

def setFamily (f : Nat) (w : Waiting) (m : Moment) : Moment :=
  { m with families := m.families.set f w }

/-- Begin an operation. One on a token that there is not has to do with no family. -/
def perform (o : Operation) (m : Moment) : Moment :=
  let here := m.past.length
  match o with
  | .create =>
    { m with tokens := m.tokens ++ [m.families.length], families := m.families ++ [some []] }
  | .copy t => { m with tokens := m.tokens ++ [m.family t] }
  | .mark n => m.note [.shows (.marked n)]
  | .answer n b => m.note [.shows (.noted n b)]
  | .check t n =>
    let f := m.family t
    match m.families[f]? with
    | none => m.note [.shows (.noted n true)]
    | some w => m.note [.looks f w.isNone, .shows (.noted n w.isNone)]
  | .observe t body =>
    let f := m.family t
    match m.families[f]? with
    | none => m.prepare (body.map .perform)
    | some none => (m.note [.observes f]).prepare [.run here f body, .leave here f]
    | some (some obs) =>
      (m.note [.observes f, .leaves here f]).setFamily f (some (obs ++ [(here, body)]))
  | .cancel t n =>
    let f := m.family t
    match m.families[f]? with
    | none => m.note [.shows (.noted n false)]
    | some none => (m.note [.cancels f]).prepare [.answer here f n false]
    | some (some obs) =>
      ((m.note [.cancels f]).setFamily f none).prepare
        (obs.map (fun o => .run o.1 f o.2) ++ [.answer here f n true])

/-- Get on with a task. -/
def work (t : Task) (m : Moment) : Moment :=
  match t with
  | .perform o => m.perform o
  | .run k f body => (m.note [.starts k f]).prepare (body.map .perform ++ [.finish k f])
  | .finish k f => m.note [.ends k f]
  | .leave k f => m.note [.leaves k f]
  | .answer k f n b => m.note [.answers k f b, .shows (.noted n b)]

def step (m : Moment) : Moment :=
  match m.tasks with
  | [] => m
  | t :: ts => { m with tasks := ts }.work t

/-! ## The machine ends -/

/-- The tokens, without the numbers of observers. -/
def toTokens (m : Moment) : Tokens := ⟨m.tokens, m.families.map (Option.map (List.map Prod.snd))⟩

def size (m : Moment) : Nat := 3 * m.toTokens.size + total Task.size m.tasks

variable {m : Moment} {f : Nat}

theorem family_toTokens (m : Moment) (t : Nat) : m.toTokens.family t = m.family t := by
  rw [Tokens.family, toTokens, List.length_map, family]

theorem waiting_toTokens (m : Moment) (f : Nat) :
    m.toTokens.waiting f = (m.families[f]?).join.map (List.map Prod.snd) := by
  rw [Tokens.waiting, toTokens, List.getElem?_map]
  rcases m.families[f]? with _ | _ | obs <;> rfl

theorem toTokens_setFamily (f : Nat) (w : Waiting) (m : Moment) :
    (m.setFamily f w).toTokens = m.toTokens.setFamily f (w.map (List.map Prod.snd)) := by
  rw [toTokens, setFamily, List.map_set, Tokens.setFamily, toTokens]

theorem total_perform (body : List Operation) :
    total Task.size (body.map .perform) = 3 * programSize body := by
  induction body with
  | nil => rfl
  | cons o body ih => rw [List.map_cons, total, ih, programSize, Nat.mul_add, Task.size]

theorem total_run_le (f : Nat) (obs : List (Nat × List Operation)) :
    total Task.size (obs.map fun o => .run o.1 f o.2) ≤
      3 * familySize (some (obs.map Prod.snd)) := by
  induction obs with
  | nil => exact Nat.zero_le _
  | cons o obs ih =>
    simp only [familySize, List.map_cons, total, Task.size] at ih ⊢
    omega

theorem size_setFamily {obs : List (Nat × List Operation)} (h : m.families[f]? = some (some obs))
    (w : Waiting) :
    (m.setFamily f w).toTokens.size + familySize (some (obs.map Prod.snd)) =
      m.toTokens.size + familySize (w.map (List.map Prod.snd)) := by
  have hwaiting : m.toTokens.waiting f = some (obs.map Prod.snd) := by
    rw [waiting_toTokens, h]
    rfl
  rw [toTokens_setFamily]
  exact Tokens.size_setFamily _ hwaiting

theorem size_prepare (ts : List Task) (m : Moment) :
    (m.prepare ts).size = m.size + total Task.size ts := by
  change 3 * m.toTokens.size + total Task.size (ts ++ m.tasks) = _
  rw [total_append, size]
  omega

theorem size_perform (o : Operation) (m : Moment) : (m.perform o).size < m.size + 3 * o.size := by
  cases o with
  | create =>
    have hsize : (m.perform .create).size = m.size := by
      simp [perform, size, toTokens, Tokens.size, total_append, total, familySize]
    rw [hsize]
    exact Nat.lt_add_of_pos_right (by simp [Operation.size])
  | copy t | mark n | answer n b => exact Nat.lt_add_of_pos_right (by simp [Operation.size])
  | check t n =>
    simp only [perform]
    split <;> exact Nat.lt_add_of_pos_right (by simp [Operation.size])
  | observe t body =>
    simp only [perform, Operation.size]
    split
    · rw [size_prepare, total_perform]
      omega
    · rw [size_prepare]
      simp only [total, Task.size]
      change m.size + _ < _
      omega
    · next obs hobs =>
      have hwait := size_setFamily hobs (some (obs ++ [(m.past.length, body)]))
      simp only [Option.map_some, familySize, List.map_append, List.map_cons, List.map_nil,
        total_append, total] at hwait
      change 3 * (m.setFamily _ _).toTokens.size + total Task.size m.tasks <
        3 * m.toTokens.size + total Task.size m.tasks + _
      omega
  | cancel t n =>
    simp only [perform, Operation.size]
    split
    · exact Nat.lt_add_of_pos_right (by decide)
    · rw [size_prepare]
      exact Nat.add_lt_add_left (show 1 < 6 by decide) m.size
    · next obs hobs =>
      have hfire := size_setFamily hobs none
      have hrun := total_run_le (m.family t) obs
      rw [size_prepare, total_append]
      simp only [total, Task.size, Option.map_none, familySize] at hfire hrun ⊢
      change 3 * (m.setFamily _ _).toTokens.size + total Task.size m.tasks + _ <
        3 * m.toTokens.size + total Task.size m.tasks + _
      omega

theorem size_work (t : Task) (m : Moment) : (m.work t).size < m.size + t.size := by
  cases t with
  | perform o => exact size_perform o m
  | run k f body =>
    rw [work, size_prepare, total_append, total_perform]
    simp only [total, Task.size]
    change m.size + _ < _
    omega
  | finish k f | leave k f | answer k f n b => exact Nat.lt_succ_self _

theorem size_step (h : m.tasks ≠ []) : m.step.size < m.size := by
  rw [step]
  split
  · next ht => exact absurd ht h
  · next t ts ht =>
    have hsize : m.size = 3 * m.toTokens.size + (t.size + total Task.size ts) := by
      rw [size, ht, total]
    have hlt : _ < 3 * m.toTokens.size + total Task.size ts + t.size :=
      size_work t { m with tasks := ts }
    omega

/-- Do all that is to be done. -/
def finish (m : Moment) : Moment := if _h : m.tasks = [] then m else m.step.finish
termination_by m.size
decreasing_by exact size_step _h

theorem tasks_finish (m : Moment) : m.finish.tasks = [] := by
  fun_induction finish m with
  | case1 m h => exact h
  | case2 m h ih => exact ih

/-- What every step keeps holds at the end. -/
theorem keeps_finish {p : Moment → Prop} (hstep : ∀ m, p m → p m.step) (h : p m) : p m.finish := by
  fun_induction finish m with
  | case1 m _ => exact h
  | case2 m _ ih => exact ih (hstep m h)

/-! ## The machine shows the same events -/

section Run

variable {s : Tokens} {t : Nat} {body os : List Operation} {obs : List (List Operation)}
  {name : String}

theorem run_observe_of_none (h : s.waiting (s.family t) = none) :
    run s (.observe t body :: os) = run s (body ++ os) := by
  conv => lhs; rw [run]
  split
  · rfl
  · next h' => rw [h] at h'; cases h'

theorem run_observe_of_some (h : s.waiting (s.family t) = some obs) :
    run s (.observe t body :: os) =
      run (s.setFamily (s.family t) (some (obs ++ [body]))) os := by
  conv => lhs; rw [run]
  split
  · next h' => rw [h] at h'; cases h'
  · next h' =>
    obtain rfl := Option.some.inj (h.symm.trans h')
    rfl

theorem run_cancel_of_none (h : s.waiting (s.family t) = none) :
    run s (.cancel t name :: os) = run s (.answer name false :: os) := by
  conv => lhs; rw [run]
  split
  · rfl
  · next h' => rw [h] at h'; cases h'

theorem run_cancel_of_some (h : s.waiting (s.family t) = some obs) :
    run s (.cancel t name :: os) =
      run (s.setFamily (s.family t) none) (obs.flatten ++ .answer name true :: os) := by
  conv => lhs; rw [run]
  split
  · next h' => rw [h] at h'; cases h'
  · next h' =>
    obtain rfl := Option.some.inj (h.symm.trans h')
    rfl

end Run

/-- What a run comes to from here on, with the events so far. -/
def outcome (m : Moment) : Tokens × List Event :=
  let r := run m.toTokens (m.tasks.flatMap Task.program)
  (r.1, m.past.flatMap Act.events ++ r.2)

theorem program_perform (body : List Operation) :
    (body.map Task.perform).flatMap Task.program = body := by
  rw [List.flatMap_map]
  exact List.flatMap_singleton' body

theorem program_run (f : Nat) (obs : List (Nat × List Operation)) :
    (obs.map fun o => Task.run o.1 f o.2).flatMap Task.program = (obs.map Prod.snd).flatten := by
  rw [List.flatMap_map, List.flatMap_def]
  rfl

theorem outcome_eq {s : Tokens} {os : List Operation} {es : List Event}
    (htokens : m.toTokens = s) (htasks : m.tasks.flatMap Task.program = os)
    (hpast : m.past.flatMap Act.events = es) :
    m.outcome = ((run s os).1, es ++ (run s os).2) := by
  rw [outcome, htokens, htasks, hpast]

theorem events_append (past : List Act) {acts : List Act} (h : acts.flatMap Act.events = []) :
    (past ++ acts).flatMap Act.events = past.flatMap Act.events := by
  rw [List.flatMap_append, h, List.append_nil]

theorem outcome_shows {acts : List Act} {e : Event} (h : acts.flatMap Act.events = [e]) :
    (m.note acts).outcome =
      ((run m.toTokens (m.tasks.flatMap Task.program)).1, m.past.flatMap Act.events ++
        e :: (run m.toTokens (m.tasks.flatMap Task.program)).2) := by
  rw [outcome_eq (m := m.note acts) rfl rfl rfl, note, List.flatMap_append, h, List.append_assoc]
  rfl

theorem outcome_perform (o : Operation) (m : Moment) :
    (m.perform o).outcome =
      ((run m.toTokens (o :: m.tasks.flatMap Task.program)).1, m.past.flatMap Act.events ++
        (run m.toTokens (o :: m.tasks.flatMap Task.program)).2) := by
  have hwaiting (t : Nat) : m.toTokens.waiting (m.toTokens.family t) =
      (m.families[m.family t]?).join.map (List.map Prod.snd) := by
    rw [family_toTokens, waiting_toTokens]
  cases o with
  | create =>
    rw [run]
    refine outcome_eq ?_ rfl rfl
    simp [perform, toTokens]
  | copy t =>
    rw [run, family_toTokens]
    exact outcome_eq rfl rfl rfl
  | mark n =>
    rw [run]
    exact outcome_shows rfl
  | answer n b =>
    rw [run]
    exact outcome_shows rfl
  | check t n =>
    rw [run, Tokens.isCancelled, hwaiting]
    simp only [perform]
    split
    · next hf =>
      rw [hf]
      exact outcome_shows rfl
    · next w hf =>
      rw [hf]
      cases w <;> exact outcome_shows rfl
  | observe t body =>
    have hw := hwaiting t
    simp only [perform]
    split
    · next hf =>
      rw [hf] at hw
      rw [run_observe_of_none hw]
      refine outcome_eq rfl ?_ rfl
      rw [prepare, List.flatMap_append, program_perform]
    · next hf =>
      rw [hf] at hw
      rw [run_observe_of_none hw]
      exact outcome_eq rfl rfl (events_append m.past rfl)
    · next obs hf =>
      rw [hf] at hw
      rw [run_observe_of_some hw, family_toTokens]
      refine outcome_eq ?_ rfl (events_append m.past rfl)
      have hset := toTokens_setFamily (m.family t) (some (obs ++ [(m.past.length, body)])) m
      rw [Option.map_some, List.map_append] at hset
      exact hset
  | cancel t n =>
    have hw := hwaiting t
    simp only [perform]
    split
    · next hf =>
      rw [hf] at hw
      rw [run_cancel_of_none hw, run]
      exact outcome_shows rfl
    · next hf =>
      rw [hf] at hw
      rw [run_cancel_of_none hw]
      exact outcome_eq rfl rfl (events_append m.past rfl)
    · next obs hf =>
      rw [hf] at hw
      rw [run_cancel_of_some hw, family_toTokens]
      have hset := toTokens_setFamily (m.family t) none m
      refine outcome_eq hset ?_ (events_append m.past rfl)
      rw [prepare, List.flatMap_append, List.flatMap_append, program_run, List.append_assoc]
      rfl

theorem outcome_step (m : Moment) : m.step.outcome = m.outcome := by
  rw [step]
  split
  · rfl
  · next t ts ht =>
    rw [outcome_eq (m := m) rfl (by rw [ht]) rfl]
    cases t with
    | perform o => exact outcome_perform o { m with tasks := ts }
    | run k f body =>
      refine outcome_eq rfl ?_ (events_append m.past rfl)
      change (body.map Task.perform ++ [Task.finish k f] ++ ts).flatMap Task.program = _
      rw [List.flatMap_append, List.flatMap_append, program_perform, List.append_assoc]
      rfl
    | finish k f | leave k f => exact outcome_eq rfl rfl (events_append m.past rfl)
    | answer k f n b =>
      rw [List.flatMap_cons, Task.program, List.singleton_append, run]
      exact outcome_shows (m := { m with tasks := ts }) rfl

theorem outcome_finish (m : Moment) : m.finish.outcome = m.outcome :=
  keeps_finish (p := fun m' => m'.outcome = m.outcome)
    (fun m' h => m'.outcome_step.trans h) rfl

end Moment

/-- What happens when a program is run, from the beginning, where there are no tokens. -/
def history (program : List Operation) : List Act :=
  (Moment.finish { tasks := program.map .perform }).past

theorem events_history (program : List Operation) :
    (history program).flatMap Act.events = (run {} program).2 := by
  have htasks := Moment.tasks_finish { tasks := program.map .perform }
  have hend : (Moment.finish { tasks := program.map .perform }).outcome =
      ((run _ []).1, (history program).flatMap Act.events ++ (run _ []).2) :=
    Moment.outcome_eq rfl (congrArg (List.flatMap Task.program) htasks) rfl
  have hbegin : Moment.outcome { tasks := program.map .perform } =
      ((run {} program).1, [] ++ (run {} program).2) :=
    Moment.outcome_eq rfl (Moment.program_perform program) rfl
  have hevents := congrArg Prod.snd ((hend.symm.trans (Moment.outcome_finish _)).trans hbegin)
  rw [run] at hevents
  exact (List.append_nil _).symm.trans hevents

end PublishDesk.Cancellation
