import PublishDesk.Proofs.Cancellation.History

/-!
# How calls and observers are nested

What has begun last ends first: whatever an observer does, the calls that it makes among it, is over
before the observer ends, and an observer that a call runs is over before the call returns
(`nested_history`).
-/

namespace PublishDesk.Cancellation

/-- A call or an observer that has begun and not ended. -/
inductive Frame where
  | call (place : Nat)
  | observer (place : Nat)
deriving DecidableEq, Repr

/-- What is under way after an act, the latest first. An act that ends something else than the
latest is out of order. -/
def Act.nest (here : Nat) (frames : List Frame) : Act → Option (List Frame)
  | .looks _ _ | .shows _ => some frames
  | .cancels _ | .observes _ => some (.call here :: frames)
  | .starts k _ => some (.observer k :: frames)
  | .answers k _ _ | .leaves k _ =>
    if frames.head? = some (.call k) then some frames.tail else none
  | .ends k _ => if frames.head? = some (.observer k) then some frames.tail else none

/-- What is under way after some acts, the first of which stands here. -/
def nest (here : Nat) (frames : List Frame) : List Act → Option (List Frame)
  | [] => some frames
  | a :: h => (a.nest here frames).bind fun frames => nest (here + 1) frames h

/-- All that has begun has ended, in the reverse order. -/
def Nested (h : List Act) : Prop := nest 0 [] h = some []

def Task.frame? : Task → Option Frame
  | .perform _ | .run _ _ _ => none
  | .finish k _ => some (.observer k)
  | .leave k _ | .answer k _ _ _ => some (.call k)

theorem nest_append (here : Nat) (frames : List Frame) (h l : List Act) :
    nest here frames (h ++ l) =
      (nest here frames h).bind fun frames => nest (here + h.length) frames l := by
  induction h generalizing here frames with
  | nil => rfl
  | cons a h ih =>
    rw [List.cons_append, nest, nest, Option.bind_assoc]
    refine Option.bind_congr fun frames' _ => ?_
    rw [ih, List.length_cons, Nat.add_assoc, Nat.add_comm 1]

theorem frames_perform (body : List Operation) :
    (body.map Task.perform).filterMap Task.frame? = [] := by
  induction body with
  | nil => rfl
  | cons o body ih => exact ih

theorem frames_run (f : Nat) (obs : List (Nat × List Operation)) :
    (obs.map fun o => Task.run o.1 f o.2).filterMap Task.frame? = [] := by
  induction obs with
  | nil => rfl
  | cons o obs ih => exact ih

namespace Moment

/-- What is under way is what the tasks will end, in their order. -/
def NestedSoFar (m : Moment) : Prop := nest 0 [] m.past = some (m.tasks.filterMap Task.frame?)

variable {m m' : Moment}

theorem nestedSoFar_of {frames : List Frame} {new : List Act} (h : nest 0 [] m.past = some frames)
    (hpast : m'.past = m.past ++ new)
    (hnew : nest m.past.length frames new = some (m'.tasks.filterMap Task.frame?)) :
    m'.NestedSoFar := by
  rw [NestedSoFar, hpast, nest_append, h, Option.bind_some, Nat.zero_add]
  exact hnew

theorem NestedSoFar.perform (h : m.NestedSoFar) (o : Operation) : (m.perform o).NestedSoFar := by
  cases o with
  | create | copy => exact h
  | mark | answer => exact nestedSoFar_of h rfl rfl
  | check t n =>
    simp only [Moment.perform]
    split <;> exact nestedSoFar_of h rfl rfl
  | observe t body =>
    simp only [Moment.perform]
    split
    · refine nestedSoFar_of h (List.append_nil _).symm ?_
      rw [prepare, List.filterMap_append, frames_perform]
      rfl
    · exact nestedSoFar_of h rfl rfl
    · exact nestedSoFar_of h rfl (by simp [nest, Act.nest, setFamily, note])
  | cancel t n =>
    simp only [Moment.perform]
    split
    · exact nestedSoFar_of h rfl rfl
    · exact nestedSoFar_of h rfl rfl
    · refine nestedSoFar_of h rfl ?_
      rw [prepare, List.filterMap_append, List.filterMap_append, frames_run]
      rfl

theorem NestedSoFar.step (h : m.NestedSoFar) : m.step.NestedSoFar := by
  rw [Moment.step]
  split
  · exact h
  · next t ts ht =>
    rw [NestedSoFar, ht] at h
    cases t with
    | perform o => exact NestedSoFar.perform (m := { m with tasks := ts }) h o
    | run k f body =>
      refine nestedSoFar_of h rfl ?_
      rw [work, prepare, List.filterMap_append, List.filterMap_append, frames_perform]
      rfl
    | finish k f | leave k f | answer k f n b =>
      exact nestedSoFar_of h rfl (by simp [nest, Act.nest, Task.frame?, work, note])

end Moment

theorem nested_history (program : List Operation) : Nested (history program) := by
  have hstart : Moment.NestedSoFar { tasks := program.map .perform } := by
    rw [Moment.NestedSoFar, frames_perform]
    rfl
  have hfinish := Moment.keeps_finish (p := Moment.NestedSoFar) (fun _ h => h.step) hstart
  rw [Moment.NestedSoFar, Moment.tasks_finish] at hfinish
  exact hfinish

end PublishDesk.Cancellation
