/-!
# Cancellation tokens

A token can be cancelled once, by any of its copies. Observers run when that happens, in the order
in which they were registered, or at once if it already has. Observers are programs over the same
tokens: they may cancel, register and look, so that running one may run others.

`run` executes a program with the operations that are still to be done held in one list. Every
operation moves to fewer or smaller ones, which is why it ends.
-/

namespace PublishDesk.Cancellation

/-- An operation. Tokens are named by their numbers in the order of creation. -/
inductive Operation where
  /-- Add a token that shares nothing with others. -/
  | create
  /-- Add a token that shares the state of another. -/
  | copy (token : Nat)
  /-- Cancel a token, and note under `name` whether that was the first time. -/
  | cancel (token : Nat) (name : String)
  /-- Note under `name` whether a token is cancelled. -/
  | check (token : Nat) (name : String)
  /-- Register an observer. -/
  | observe (token : Nat) (body : List Operation)
  /-- Leave a mark. -/
  | mark (name : String)
  /-- The end of a call to cancel, after its observers. -/
  | answer (name : String) (result : Bool)

/-- What can be seen of a run. -/
inductive Event where
  | marked (name : String)
  | noted (name : String) (result : Bool)
deriving DecidableEq, Repr

mutual

/-- The size of an operation, its observers included. -/
def Operation.size : Operation → Nat
  | .cancel _ _ => 2
  | .observe _ body => 2 + programSize body
  | _ => 1

def programSize : List Operation → Nat
  | [] => 0
  | o :: os => o.size + programSize os

end

/-- The observers of a family of copies; none are held once the family has been cancelled. -/
abbrev Family := Option (List (List Operation))

structure Tokens where
  /-- The family of each token. -/
  tokens : List Nat := []
  families : List Family := []

namespace Tokens

/-- One token. -/
def single : Tokens := ⟨[0], [some []]⟩

def family (s : Tokens) (token : Nat) : Nat := s.tokens.getD token s.families.length

/-- The observers that wait on a family; `none` if it has been cancelled, or if there is no such
family. -/
def waiting (s : Tokens) (f : Nat) : Option (List (List Operation)) := (s.families[f]?).join

def isCancelled (s : Tokens) (token : Nat) : Bool := (s.waiting (s.family token)).isNone

/-- A token in words. -/
def describe (s : Tokens) (token : Nat) : String :=
  "CancellationToken \x7b is_cancelled: " ++ (if s.isCancelled token then "true" else "false") ++
    " \x7d"

def setFamily (s : Tokens) (f : Nat) (w : Family) : Tokens :=
  { s with families := s.families.set f w }

end Tokens

/-- The sizes of all members of a list together. -/
def total {α : Type} (size : α → Nat) : List α → Nat
  | [] => 0
  | a :: l => size a + total size l

/-- The size of the observers that wait. -/
def familySize : Family → Nat
  | none => 0
  | some obs => total (fun o => 1 + programSize o) obs

def Tokens.size (s : Tokens) : Nat := total familySize s.families

theorem total_append {α : Type} (size : α → Nat) (l m : List α) :
    total size (l ++ m) = total size l + total size m := by
  induction l with
  | nil => simp [total]
  | cons a l ih => simp [total, ih, Nat.add_assoc]

theorem programSize_append (a b : List Operation) :
    programSize (a ++ b) = programSize a + programSize b := by
  induction a with
  | nil => simp [programSize]
  | cons o os ih => simp [programSize, ih, Nat.add_assoc]

theorem programSize_flatten_le (obs : List (List Operation)) :
    programSize obs.flatten ≤ familySize (some obs) := by
  induction obs with
  | nil => simp [programSize, familySize]
  | cons o os ih =>
    simp only [familySize, total, List.flatten_cons, programSize_append] at ih ⊢
    omega

theorem total_set {α : Type} (size : α → Nat) (l : List α) (i : Nat) (h : i < l.length) (a : α) :
    total size (l.set i a) + size l[i] = total size l + size a := by
  induction l generalizing i with
  | nil => simp at h
  | cons b l ih =>
    cases i with
    | zero =>
      simp only [List.set_cons_zero, total, List.getElem_cons_zero]
      omega
    | succ i =>
      simp only [List.set_cons_succ, total, List.getElem_cons_succ]
      have := ih i (by simpa using h)
      omega

theorem Tokens.size_setFamily {s : Tokens} {f : Nat} {obs : List (List Operation)} (w : Family)
    (h : s.waiting f = some obs) :
    (s.setFamily f w).size + familySize (some obs) = s.size + familySize w := by
  have hf : s.families[f]? = some (some obs) := by
    simp only [Tokens.waiting] at h
    cases hg : s.families[f]? with
    | none => simp [hg] at h
    | some g => simpa [hg] using h
  obtain ⟨hlt, hget⟩ := List.getElem?_eq_some_iff.1 hf
  have := total_set familySize s.families f hlt w
  simpa [Tokens.size, Tokens.setFamily, hget] using this

/-- Execute operations one after the other; what they leave to be done comes before the rest. -/
def run (s : Tokens) : List Operation → Tokens × List Event
  | [] => (s, [])
  | .create :: os =>
    run ⟨s.tokens ++ [s.families.length], s.families ++ [some []]⟩ os
  | .copy t :: os => run { s with tokens := s.tokens ++ [s.family t] } os
  | .mark n :: os =>
    let r := run s os
    (r.1, .marked n :: r.2)
  | .check t n :: os =>
    let r := run s os
    (r.1, .noted n (s.isCancelled t) :: r.2)
  | .answer n b :: os =>
    let r := run s os
    (r.1, .noted n b :: r.2)
  | .observe t body :: os =>
    match _h : s.waiting (s.family t) with
    | none => run s (body ++ os)
    | some obs => run (s.setFamily (s.family t) (some (obs ++ [body]))) os
  | .cancel t n :: os =>
    match _h : s.waiting (s.family t) with
    | none => run s (.answer n false :: os)
    | some obs => run (s.setFamily (s.family t) none) (obs.flatten ++ .answer n true :: os)
termination_by os => s.size + programSize os
decreasing_by
  · simp [Tokens.size, total_append, total, familySize, programSize, Operation.size]
  · simp [Tokens.size, programSize, Operation.size]
  · simp [programSize, Operation.size]
  · simp [programSize, Operation.size]
  · simp [programSize, Operation.size]
  · simp only [programSize_append, programSize, Operation.size]; omega
  · have := Tokens.size_setFamily (some (obs ++ [body])) _h
    simp only [familySize, total_append, total] at this
    simp only [programSize, Operation.size]
    omega
  · simp only [programSize, Operation.size]; omega
  · have h₁ := Tokens.size_setFamily none _h
    have h₂ := programSize_flatten_le obs
    have h₃ : familySize none = 0 := rfl
    simp only [programSize_append, programSize, Operation.size]
    omega

end PublishDesk.Cancellation
