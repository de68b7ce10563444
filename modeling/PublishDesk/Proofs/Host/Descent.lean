import Mathlib.Logic.Hydra
import PublishDesk.Proofs.Host.Progress

/-!
# No job goes on for ever

A step leaves less of the job that makes it, whatever its answer is, and as much of the others. So a
crowd that gets no new jobs makes only finitely many steps (`Crowd.wellFounded_step`), in whatever
order the jobs make them and even if the answers depend on all that has happened before.
-/

namespace PublishDesk

open Relation (CutExpand)

variable {α : Type}

/-- What is left of a job once it has the answer to its next step. -/
inductive Job.Next : Job α → Job α → Prop
  | mk (q : HostStep) (next : q.Answer → Job α) (a : q.Answer) : Next (next a) (.ask q next)

theorem Job.wellFounded_next : WellFounded (Job.Next (α := α)) := by
  refine ⟨fun p => ?_⟩
  induction p with
  | done a => exact ⟨_, nofun⟩
  | ask q next ih => exact ⟨_, fun _ ⟨_, _, a⟩ => ih a⟩

/-- Less of a job is left, or its call has begun. -/
abbrev Job.Less : Job α × Bool → Job α × Bool → Prop := Prod.Lex Job.Next (· < ·)

namespace Standing

/-- What is left of a job, and whether it has yet to begin a call. -/
def left : Standing α → Job α × Bool
  | .ready p | .waiting p => (p, true)
  | .calling c next => (.ask (.tree (.repository c)) next, false)

theorem left_wake (s : Standing α) : s.wake.left = s.left := by cases s <;> rfl

theorem less_of_advances {m : Mark} {s s' : Standing α} (h : m.Advances s s') :
    Job.Less s'.left s.left := by
  cases h with
  | began => exact .right _ (by decide)
  | @returned r _ a => exact .left _ _ (.mk (.tree (.repository r)) _ a)
  | queued => exact .left _ _ (.mk (.tree .acquire) _ ())
  | @met q _ _ a => exact .left _ _ (.mk q _ a)

end Standing

namespace Crowd

/-- What is left of the jobs. -/
def left (c : Crowd α) : Multiset (Job α × Bool) := ↑(c.jobs.map Standing.left)

theorem set_add_singleton {β : Type} {l : List β} {i : Nat} {a : β} (hi : l[i]? = some a) (b : β) :
    (↑(l.set i b) : Multiset β) + {a} = ↑l + {b} := by
  induction l generalizing i with
  | nil => cases hi
  | cons x l ih =>
    cases i with
    | zero =>
      obtain rfl : x = a := Option.some.inj hi
      rw [List.set_cons_zero, ← Multiset.cons_coe, ← Multiset.cons_coe, Multiset.cons_add,
        Multiset.cons_add, ← Multiset.cons_zero x, ← Multiset.cons_zero b, Multiset.add_cons,
        Multiset.add_cons]
      exact Multiset.cons_swap b x _
    | succ i =>
      rw [List.set_cons_succ, ← Multiset.cons_coe, ← Multiset.cons_coe, Multiset.cons_add,
        Multiset.cons_add, ih hi]

theorem Step.left_lt {i : Nat} {c c' : Crowd α} (h : Step i c c') :
    CutExpand Job.Less c'.left c.left := by
  obtain ⟨m, s, s', hi, hadv, -, -, hjobs⟩ := h.inv
  have hleft : c'.jobs.map Standing.left = (c.jobs.map Standing.left).set i s'.left := by
    rw [← List.map_set]
    refine List.ext_getElem? fun j => ?_
    rw [List.getElem?_map, List.getElem?_map]
    obtain hj | hj := hjobs j
    · rw [hj]
      rfl
    · rw [hj, Option.map_map]
      exact congrArg (Option.map · _) (funext Standing.left_wake)
  have hs : (c.jobs.map Standing.left)[i]? = some s.left := by rw [List.getElem?_map, hi]; rfl
  refine ⟨{s'.left}, s.left, fun p hp => ?_, ?_⟩
  · rw [Multiset.mem_singleton.1 hp]
    exact Standing.less_of_advances hadv
  · rw [left, left, hleft]
    exact set_add_singleton hs s'.left

/-- Without new jobs there is no run without end. -/
theorem wellFounded_step : WellFounded fun c' c : Crowd α => ∃ i, Step i c c' := by
  have hless : WellFounded (Job.Less (α := α)) := Job.wellFounded_next.prod_lex wellFounded_lt
  exact Subrelation.wf (fun ⟨_, h⟩ => h.left_lt) (InvImage.wf left hless.cutExpand)

end Crowd
end PublishDesk
