import Mathlib
import PublishDesk.Proofs.Host.Requests

/-!
# What saves leave in a repository

Saves and status reads share a repository in memory, while somebody else changes its branches, its
working tree and what fails in it, between any two turns and also while a push waits at a gate.
`Crew.history` lists all changes, with the operations that have made them. How a save has ended
tells what it has changed (`SaveEffect`), so commits and pushes can be counted by their outcomes
(`Crew.Books`).
-/

namespace PublishDesk

open Job

/-! ## What steps do to a repository -/

/-- What a push is noted as, if it has been made. -/
def CallRecord.pushed? : CallRecord → Option String
  | ⟨.push branch setUpstream, .ok ()⟩ =>
    some (if setUpstream then branch ++ " --set-upstream" else branch)
  | _ => none

namespace Job

/-- The pushes that have been made. -/
def pushes (l : List Made) : List String := (callsOf l).filterMap CallRecord.pushed?

theorem pushes_append (l l' : List Made) : pushes (l ++ l') = pushes l ++ pushes l' := by
  rw [pushes, callsOf_append, List.filterMap_append, pushes, pushes]

end Job

namespace MemoryRepository

/-- Which calls fail. -/
def flags (r : MemoryRepository) : Bool × Bool × Bool :=
  (r.failCheckout, r.failCommit, r.failPush)

/-- Steps have changed a repository, but for its commits and its branches, as they say. -/
structure Touched (l : List Made) (r r' : MemoryRepository) : Prop where
  pushed : r'.pushed = r.pushed ++ pushes l
  /-- What has been committed is no longer pending. -/
  dirty : r'.dirty = (r.dirty && (Job.commits l).isEmpty)
  flags : r'.flags = r.flags
  same : (∀ c ∈ Job.callsOf l, c.1 = .currentBranch) → r' = r

/-- Steps that neither commit nor push leave the pushes and the pending changes as they are. -/
theorem Touched.of_kept {l : List Made} {r r' : MemoryRepository}
    (hl : pushes l = [] ∧ Job.commits l = [])
    (hkept : r'.pushed = r.pushed ∧ r'.dirty = r.dirty ∧ r'.flags = r.flags)
    (hsame : (∀ c ∈ Job.callsOf l, c.1 = .currentBranch) → r' = r) : Touched l r r' where
  pushed := by rw [hl.1, hkept.1, List.append_nil]
  dirty := by rw [hl.2, hkept.2.1, List.isEmpty_nil, Bool.and_true]
  flags := hkept.2.2
  same := hsame

theorem Touched.of_unchanged {l : List Made} (hl : pushes l = [] ∧ Job.commits l = [])
    (r : MemoryRepository) : Touched l r r :=
  .of_kept hl ⟨rfl, rfl, rfl⟩ fun _ => rfl

theorem Touched.refl (r : MemoryRepository) : Touched [] r r := .of_unchanged ⟨rfl, rfl⟩ r

theorem Touched.trans {l l' : List Made} {r r' r'' : MemoryRepository} (h : Touched l r r')
    (h' : Touched l' r' r'') : Touched (l ++ l') r r'' where
  pushed := by rw [h'.pushed, h.pushed, pushes_append, List.append_assoc]
  dirty := by
    rw [h'.dirty, h.dirty, commits_append, Bool.and_assoc]
    cases Job.commits l <;> rfl
  flags := h'.flags.trans h.flags
  same hcalls := by
    rw [Job.callsOf_append, List.forall_mem_append] at hcalls
    rw [h'.same hcalls.2, h.same hcalls.1]

theorem touched_answer (c : RepositoryCall) (r : MemoryRepository) :
    Touched [⟨.tree (.repository c), (r.answer c).1⟩] r (r.answer c).2 := by
  by_cases hc : c = .currentBranch
  · subst hc
    exact .of_unchanged ⟨rfl, rfl⟩ r
  have hother {a : c.Answer} {P : Prop}
      (h : ∀ e ∈ Job.callsOf [⟨.tree (.repository c), a⟩], e.1 = .currentBranch) : P :=
    absurd (h ⟨c, a⟩ (.head _)) hc
  cases c with
  | currentBranch => exact absurd rfl hc
  | branches => exact .of_unchanged ⟨rfl, rfl⟩ r
  | checkout b =>
    rw [answer, checkout]
    split <;> [skip; split] <;> exact .of_kept ⟨rfl, rfl⟩ ⟨rfl, rfl, rfl⟩ hother
  | checkoutNew b =>
    rw [answer, checkoutNew]
    split <;> [skip; split] <;> exact .of_kept ⟨rfl, rfl⟩ ⟨rfl, rfl, rfl⟩ hother
  | commit m =>
    rw [answer, commit]
    split
    · exact .of_kept ⟨rfl, rfl⟩ ⟨rfl, rfl, rfl⟩ hother
    · split
      · exact ⟨(List.append_nil _).symm, (Bool.and_false _).symm, rfl, hother⟩
      · exact .of_kept ⟨rfl, rfl⟩ ⟨rfl, rfl, rfl⟩ hother
  | push b u =>
    rw [answer, push]
    split
    · exact .of_kept ⟨rfl, rfl⟩ ⟨rfl, rfl, rfl⟩ hother
    · exact ⟨rfl, (Bool.and_true _).symm, rfl, hother⟩

end MemoryRepository

namespace Desk

variable {α : Type} {d d' : Desk} {i : Nat} {passed : Bool} {s : HostStep} {woken : Option Nat}

theorem step_touched {progress : Progress s.Answer}
    (h : d.step i passed s = (progress, d', woken)) :
    MemoryRepository.Touched (progress.answer?.toList.map fun a => ⟨s, a⟩)
      d.repository d'.repository := by
  obtain ⟨_ | _ | c | _⟩ | _ | _ | _ | _ | m := s
  case tree.acquire =>
    rcases hl : d.lock.acquire i with ⟨_ | _, lock⟩ <;>
    · rw [step, hl] at h
      cases h
      exact .of_unchanged ⟨rfl, rfl⟩ _
  case tree.repository =>
    obtain ⟨gates, ⟨hstep, -⟩ | ⟨hstep, -⟩⟩ := step_call i passed c d
    · cases hstep.symm.trans h
      exact MemoryRepository.touched_answer c d.repository
    · cases hstep.symm.trans h
      exact .refl _
  all_goals
    cases h
    exact .of_unchanged ⟨rfl, rfl⟩ _

theorem work_touched (p : Job α) :
    MemoryRepository.Touched (d.steps i passed p) d.repository
      (d.work i passed p).desk.repository := by
  induction p generalizing d passed with
  | done a => exact .refl _
  | ask s next ih =>
    rw [steps, work]
    rcases hs : d.step i passed s with ⟨a | a | _, d', woken⟩
    · exact (step_touched hs).trans (ih a)
    · exact step_touched hs
    · exact step_touched hs

end Desk

/-! ## Saves and what they have done -/

/-- Whether a save that ends like this has made a commit. -/
def SaveOutcome.committed : SaveOutcome → Bool
  | .saved | .failed (.push _ _) => true
  | _ => false

/-- Whether a save that ends like this has pushed. -/
def SaveOutcome.pushed : SaveOutcome → Bool
  | .saved => true
  | _ => false

namespace Workflow

variable {target message : String} {calls : List CallRecord} {o : SaveOutcome}

theorem Preparation.filterMap_eq_nil {β : Type} {p : CallRecord → Option β}
    {failure : Option String} (h : Preparation target calls failure)
    (hp : ∀ r : CallRecord, (∀ m, r.1 ≠ .commit m) → (∀ b u, r.1 ≠ .push b u) → p r = none) :
    calls.filterMap p = [] := by
  refine List.filterMap_eq_nil_iff.2 fun r hr => hp r (fun m hm => ?_) fun b u hb => ?_
  · exact h.not_commit m (hm ▸ mem_asked hr)
  · exact h.not_push b u (hb ▸ mem_asked hr)

theorem Preparation.no_commit {failure : Option String} (h : Preparation target calls failure) :
    calls.filterMap CallRecord.committed? = [] := by
  refine h.filterMap_eq_nil fun ⟨c, a⟩ hcommit _ => ?_
  cases c with
  | commit m => exact absurd rfl (hcommit m)
  | _ => rfl

theorem Preparation.no_push {failure : Option String} (h : Preparation target calls failure) :
    calls.filterMap CallRecord.pushed? = [] := by
  refine h.filterMap_eq_nil fun ⟨c, a⟩ _ hpush => ?_
  cases c with
  | push b u => exact absurd rfl (hpush b u)
  | _ => rfl

theorem Published.commits_eq (h : Published target message calls o) :
    calls.filterMap CallRecord.committed? = if o.committed then [message] else [] := by
  cases h with
  | prepared h h' =>
    rw [List.filterMap_append, h.no_commit]
    cases h' <;> rfl
  | abandoned h => exact h.no_commit

theorem Published.pushes_eq (h : Published target message calls o) :
    calls.filterMap CallRecord.pushed? =
      if o.pushed then [target ++ " --set-upstream"] else [] := by
  cases h with
  | prepared h h' =>
    rw [List.filterMap_append, h.no_push]
    cases h' <;> rfl
  | abandoned h => exact h.no_push

end Workflow

/-- Whether an operation that ends like this has made a commit. -/
def Report.committed : Report → Bool
  | .save o => o.committed
  | .status _ => false

/-- Whether an operation that ends like this has pushed. -/
def Report.pushed : Report → Bool
  | .save o => o.pushed
  | .status _ => false

namespace Operation

variable {target : String} {op : Operation} {l : List Made} {r : Report}

/-- The message of a save; a status read has none. -/
def message : Operation → String
  | .save message => message
  | .status => ""

theorem commits_of_transcript (h : (op.job target).Transcript l r) :
    Job.commits l = if r.committed then [op.message] else [] := by
  rw [Job.commits_eq]
  generalize hcalls : Job.callsOf l = calls
  cases hcalls ▸ calls_of_transcript h with
  | blank | unreadable | read => rfl
  | save _ hpublished => exact hpublished.commits_eq

theorem pushes_of_transcript (h : (op.job target).Transcript l r) :
    Job.pushes l = if r.pushed then [target ++ " --set-upstream"] else [] := by
  rw [Job.pushes]
  generalize hcalls : Job.callsOf l = calls
  cases hcalls ▸ calls_of_transcript h with
  | blank | unreadable | read => rfl
  | save _ hpublished => exact hpublished.pushes_eq

end Operation

/-! ## Changes -/

/-- A change of a repository. -/
structure Change where
  /-- The number of the operation whose turn it has been, if the change was made in a turn. -/
  author : Option Nat
  before : MemoryRepository
  after : MemoryRepository
  /-- The steps that the operation made in its turn. -/
  steps : List Made := []

namespace Change

/-- The commits that the change has added. -/
def commits (x : Change) : List (String × String) := x.after.commits.drop x.before.commits.length

/-- The pushes that the change has added. -/
def pushes (x : Change) : List String := x.after.pushed.drop x.before.pushed.length

end Change

/-- The changes that an operation has made. -/
def changesBy (number : Nat) (l : List Change) : List Change := l.filter (·.author == some number)

/-- The changes lead from one repository to the other. -/
def Linked : MemoryRepository → List Change → MemoryRepository → Prop
  | r, [], r' => r' = r
  | r, x :: l, r' => x.before = r ∧ Linked x.after l r'

namespace Crew

inductive Move where
  | save (message : String)
  | status
  /-- The operation that has been ready longest has its turn. -/
  | turn
  | holdPushes
  | releasePush (gate : Nat)
  /-- Somebody else changes the branches, the working tree, or what fails. -/
  | update (repository : MemoryRepository)

def Move.operation? : Move → Option Operation
  | .save message => some (.save message)
  | .status => some .status
  | _ => none

/-- A crew with nothing to do yet. -/
def opened (target : String) (repository : MemoryRepository)
    (review : Except ReviewFailure (Option String)) : Crew Report where
  desk := { target := target, repository := repository, review := review }

def move (c : Crew Report) : Move → Crew Report
  | .save message => c.startSave message
  | .status => c.startStatus
  | .turn => c.turn?.getD c
  | .holdPushes => c.holdPushes
  | .releasePush gate => c.releasePush gate
  | .update r => c.update fun old =>
    { r with commits := old.commits, pushed := old.pushed, calls := old.calls }

def run (c : Crew Report) (moves : List Move) : Crew Report := moves.foldl move c

/-- How a move changes the repository, if it may. -/
def change? (c : Crew Report) : Move → Option Change
  | .turn => some ⟨c.ready.head?, c.desk.repository, (c.move .turn).desk.repository,
    c.turnSteps.map (·.2)⟩
  | .update r => some ⟨none, c.desk.repository, (c.move (.update r)).desk.repository, []⟩
  | _ => none

/-- The changes that are made in a run. -/
def history (c : Crew Report) : List Move → List Change
  | [] => []
  | m :: moves => (c.change? m).toList ++ (c.move m).history moves

end Crew

/-- What a save with this outcome has changed. -/
structure SaveEffect (target message : String) (o : SaveOutcome) (l : List Change) : Prop where
  commits : l.flatMap Change.commits = if o.committed then [(target, message)] else []
  pushes : l.flatMap Change.pushes = if o.pushed then [target ++ " --set-upstream"] else []
  /-- Commits and pushes are added; what is committed is no longer pending, and what fails goes on
  failing. -/
  each : ∀ x ∈ l, x.after.commits = x.before.commits ++ x.commits ∧
    x.after.pushed = x.before.pushed ++ x.pushes ∧
    x.after.dirty = (x.before.dirty && x.commits.isEmpty) ∧ x.after.flags = x.before.flags
  /-- A save that has not committed leaves commits, pushes and pending changes as they were. -/
  kept : o.committed = false → ∀ x ∈ l, x.after.commits = x.before.commits ∧
    x.after.pushed = x.before.pushed ∧ x.after.dirty = x.before.dirty
  same : o = .failed .emptyMessage → ∀ x ∈ l, x.after = x.before

/-- How the operations, the changes of the repository and the crew belong together. -/
structure Crew.Books (target : String) (repository : MemoryRepository)
    (operations : List Operation) (l : List Change) (c : Crew Report) : Prop where
  linked : Linked repository l c.desk.repository
  /-- Every operation is under way, or has ended once. -/
  once : (c.tasks.map (·.number) ++ c.ended.map (·.1)).Perm (List.range operations.length)
  effect : ∀ n o, (n, .save o) ∈ c.ended → ∃ message, operations[n]? = some (.save message) ∧
    SaveEffect target message o (changesBy n l)
  read : ∀ n s, (n, .status s) ∈ c.ended → ∀ x ∈ changesBy n l, x.after = x.before
  commits : c.desk.repository.commits = repository.commits ++ l.flatMap Change.commits
  pushed : c.desk.repository.pushed = repository.pushed ++ l.flatMap Change.pushes
  on_target : ∀ e ∈ l.flatMap Change.commits, e.1 = target
  /-- As many commits are added as saves end with one, but for the saves that are under way. -/
  commits_length : (l.flatMap Change.commits).length = c.ended.countP (·.2.committed) +
    (c.tasks.map fun t => ((changesBy t.number l).flatMap Change.commits).length).sum
  pushes_length : (l.flatMap Change.pushes).length = c.ended.countP (·.2.pushed) +
    (c.tasks.map fun t => ((changesBy t.number l).flatMap Change.pushes).length).sum

/-! ## Changes and steps -/

def stepsBy (number : Nat) (l : List Change) : List Made := (changesBy number l).flatMap (·.steps)

/-- A change is what the steps say that have made it. -/
structure Change.Told (target : String) (x : Change) : Prop where
  commits : x.after.commits = x.before.commits ++ (Job.commits x.steps).map (target, ·)
  pushed : x.after.pushed = x.before.pushed ++ Job.pushes x.steps
  touched : x.author.isSome → MemoryRepository.Touched x.steps x.before x.after

variable {target : String} {repository r r' : MemoryRepository} {l l' : List Change} {x : Change}
  {n : Nat}

theorem stepsBy_append (n : Nat) (l l' : List Change) :
    stepsBy n (l ++ l') = stepsBy n l ++ stepsBy n l' := by
  rw [stepsBy, changesBy, List.filter_append, List.flatMap_append, stepsBy, stepsBy, changesBy,
    changesBy]

theorem stepsBy_concat_self (h : x.author = some n) :
    stepsBy n (l ++ [x]) = stepsBy n l ++ x.steps := by
  rw [stepsBy_append]
  simp [stepsBy, changesBy, h]

theorem stepsBy_concat_of_ne (h : x.author ≠ some n) : stepsBy n (l ++ [x]) = stepsBy n l := by
  rw [stepsBy_append]
  simp [stepsBy, changesBy, h]

theorem stepsBy_concat_of_nil (h : x.steps = []) : stepsBy n (l ++ [x]) = stepsBy n l := by
  by_cases hx : x.author = some n
  · rw [stepsBy_concat_self hx, h, List.append_nil]
  · exact stepsBy_concat_of_ne hx

theorem Linked.concat (h : Linked r l x.before) : Linked r (l ++ [x]) x.after := by
  induction l generalizing r with
  | nil => exact ⟨h, rfl⟩
  | cons y l ih => exact ⟨h.1, ih h.2⟩

theorem Change.Told.commits_eq (h : x.Told target) :
    x.commits = (Job.commits x.steps).map (target, ·) := by
  rw [Change.commits, h.commits, List.drop_left]

theorem Change.Told.pushes_eq (h : x.Told target) : x.pushes = Job.pushes x.steps := by
  rw [Change.pushes, h.pushed, List.drop_left]

/-- What changes add is what all their steps tell, if that is so for each of them. -/
theorem flatMap_of_steps {β : Type} {f : Change → List β} {g : List Made → List β}
    (hnil : g [] = []) (happend : ∀ a b, g (a ++ b) = g a ++ g b)
    (h : ∀ x ∈ l, f x = g x.steps) : l.flatMap f = g (l.flatMap (·.steps)) := by
  induction l with
  | nil => exact hnil.symm
  | cons x l ih =>
    obtain ⟨hx, hl⟩ := List.forall_mem_cons.1 h
    rw [List.flatMap_cons, List.flatMap_cons, happend, hx, ih hl]

theorem commits_of_told (h : ∀ x ∈ l, x.Told target) :
    l.flatMap Change.commits = (Job.commits (l.flatMap (·.steps))).map (target, ·) :=
  flatMap_of_steps (g := fun m => (Job.commits m).map (target, ·)) rfl
    (fun a b => by rw [Job.commits_append, List.map_append]) fun x hx => (h x hx).commits_eq

theorem pushes_of_told (h : ∀ x ∈ l, x.Told target) :
    l.flatMap Change.pushes = Job.pushes (l.flatMap (·.steps)) :=
  flatMap_of_steps rfl Job.pushes_append fun x hx => (h x hx).pushes_eq

/-- What each change adds is there in the end. -/
theorem Linked.appended {β : Type} {f : Change → List β} {g : MemoryRepository → List β}
    (h : Linked r l r') (hl : ∀ x ∈ l, g x.after = g x.before ++ f x) :
    g r' = g r ++ l.flatMap f := by
  induction l generalizing r with
  | nil => rw [h, List.flatMap_nil, List.append_nil]
  | cons x l ih =>
    obtain ⟨hx, hl⟩ := List.forall_mem_cons.1 hl
    rw [ih h.2 hl, List.flatMap_cons, hx, h.1, List.append_assoc]

theorem Linked.commits (h : Linked r l r') (hl : ∀ x ∈ l, x.Told target) :
    r'.commits = r.commits ++ l.flatMap Change.commits :=
  h.appended fun x hx => (hl x hx).commits_eq ▸ (hl x hx).commits

theorem Linked.pushed (h : Linked r l r') (hl : ∀ x ∈ l, x.Told target) :
    r'.pushed = r.pushed ++ l.flatMap Change.pushes :=
  h.appended fun x hx => (hl x hx).pushes_eq ▸ (hl x hx).pushed

/-- What is added in changes that have authors is the sum of what each of the authors adds. -/
theorem length_flatMap_changes {β : Type} {f : Change → List β} {numbers : List Nat}
    (hnumbers : numbers.Nodup) (hf : ∀ x ∈ l, f x ≠ [] → ∃ n ∈ numbers, x.author = some n) :
    (l.flatMap f).length = (numbers.map fun n => ((changesBy n l).flatMap f).length).sum := by
  induction l with
  | nil => simp [changesBy]
  | cons x l ih =>
    obtain ⟨hx, hl⟩ := List.forall_mem_cons.1 hf
    have hself : (numbers.map fun n => if x.author = some n then (f x).length else 0).sum =
        (f x).length := by
      by_cases hnil : f x = []
      · simp [hnil]
      · obtain ⟨n, hn, hauthor⟩ := hx hnil
        rw [List.sum_map_eq_nsmul_single n _ fun m hm _ => if_neg fun heq =>
          hm (Option.some.inj (heq.symm.trans hauthor)), if_pos hauthor,
          List.count_eq_one_of_mem hnumbers hn, one_nsmul]
    have hcons (n : Nat) : ((changesBy n (x :: l)).flatMap f).length =
        (if x.author = some n then (f x).length else 0) + ((changesBy n l).flatMap f).length := by
      by_cases hauthor : x.author = some n <;> simp [changesBy, hauthor]
    rw [List.flatMap_cons, List.length_append, ih hl, ← hself, ← List.sum_map_add]
    simp only [hcons]

theorem sum_map_toNat {α : Type} (p : α → Bool) (l : List α) :
    (l.map fun a => (p a).toNat).sum = l.countP p := by
  induction l with
  | nil => rfl
  | cons a l ih =>
    rw [List.map_cons, List.sum_cons, ih, List.countP_cons, Nat.add_comm]
    cases p a <;> rfl

/-! ## Runs -/

namespace Operation

theorem careful_job (target : String) (op : Operation) : Careful target false (op.job target) := by
  cases op with
  | save message => exact (careful_saving target message).map _
  | status => exact (careful_looking target).map _

end Operation

namespace Crew

variable {operations : List Operation} {c c' : Crew Report} {i : Nat}

/-- What holds of a crew and of the changes made so far. -/
structure Accounts (target : String) (repository : MemoryRepository) (operations : List Operation)
    (l : List Change) (c : Crew Report) : Prop where
  target_eq : c.desk.target = target
  started : c.started = operations.length
  once : (c.tasks.map (·.number) ++ c.ended.map (·.1)).Perm (List.range c.started)
  linked : Linked repository l c.desk.repository
  told : ∀ x ∈ l, x.Told target
  authors : ∀ x ∈ l, x.steps ≠ [] → ∃ n < c.started, x.author = some n
  jobs : ∀ t ∈ c.tasks, Careful target false t.rest ∧ ∃ op, operations[t.number]? = some op ∧
    (op.job target).Leads (stepsBy t.number l) t.rest
  ends : ∀ e ∈ c.ended, ∃ op, operations[e.1]? = some op ∧
    (op.job target).Transcript (stepsBy e.1 l) e.2

theorem accounts_opened (target : String) (repository : MemoryRepository)
    (review : Except ReviewFailure (Option String)) :
    Accounts target repository [] [] (opened target repository review) where
  target_eq := rfl
  started := rfl
  once := .nil
  linked := rfl
  told _ h := absurd h List.not_mem_nil
  authors _ h := absurd h List.not_mem_nil
  jobs _ h := absurd h List.not_mem_nil
  ends _ h := absurd h List.not_mem_nil

theorem Accounts.lt_started (H : Accounts target repository operations l c) {t : Task Report}
    (ht : t ∈ c.tasks) : t.number < c.started :=
  List.mem_range.1 (H.once.subset (List.mem_append_left _ (List.mem_map_of_mem ht)))

theorem Accounts.nodup (H : Accounts target repository operations l c) :
    (c.tasks.map (·.number) ++ c.ended.map (·.1)).Nodup :=
  H.once.nodup_iff.2 List.nodup_range

/-- An operation that has not been started has made no steps. -/
theorem Accounts.stepsBy_started (H : Accounts target repository operations l c) :
    stepsBy c.started l = [] := by
  refine List.flatMap_eq_nil_iff.2 fun x hx => ?_
  obtain ⟨hmem, hauthor⟩ := List.mem_filter.1 hx
  by_contra hsteps
  obtain ⟨n, hn, hauthor'⟩ := H.authors x hmem hsteps
  obtain rfl := Option.some.inj ((beq_iff_eq.1 hauthor).symm.trans hauthor')
  exact absurd hn (Nat.lt_irrefl _)

theorem Accounts.start (H : Accounts target repository operations l c) (op : Operation) :
    Accounts target repository (operations ++ [op]) l (c.start (op.job target)) := by
  have hop {n : Nat} {op' : Operation} (h : operations[n]? = some op') :
      (operations ++ [op])[n]? = some op' := by
    obtain ⟨hn, -⟩ := List.getElem?_eq_some_iff.1 h
    rw [List.getElem?_append_left hn, h]
  refine { H with started := ?_, once := ?_, authors := ?_, jobs := ?_, ends := ?_ }
  · rw [List.length_append, ← H.started]
    rfl
  · have hswap : ((c.tasks.map (·.number) ++ [c.started]) ++ c.ended.map (·.1)).Perm
        ((c.tasks.map (·.number) ++ c.ended.map (·.1)) ++ [c.started]) := by
      rw [List.append_assoc, List.append_assoc]
      exact List.perm_append_comm.append_left _
    simp only [Crew.start, List.map_append, List.map_singleton, List.range_succ]
    exact hswap.trans (H.once.append_right _)
  · intro x hx hsteps
    obtain ⟨n, hn, hauthor⟩ := H.authors x hx hsteps
    exact ⟨n, Nat.lt_succ_of_lt hn, hauthor⟩
  · intro t ht
    obtain ht | ht := List.mem_append.1 ht
    · obtain ⟨hcareful, op', hop', hleads⟩ := H.jobs t ht
      exact ⟨hcareful, op', hop hop', hleads⟩
    · obtain rfl := List.mem_singleton.1 ht
      refine ⟨op.careful_job target, op, ?_, ?_⟩
      · rw [H.started]
        exact List.getElem?_concat_length
      · rw [H.stepsBy_started]
        exact .nil
  · intro e he
    obtain ⟨op', hop', htranscript⟩ := H.ends e he
    exact ⟨op', hop hop', htranscript⟩

/-- Changes without steps do not concern the operations. -/
theorem Accounts.concat (H : Accounts target repository operations l c) (hx : x.Told target)
    (hsteps : x.steps = []) (hbefore : x.before = c.desk.repository) {d : Desk}
    (htarget : d.target = c.desk.target) (hafter : d.repository = x.after) (ready : List Nat) :
    Accounts target repository operations (l ++ [x]) { c with desk := d, ready := ready } where
  target_eq := htarget.trans H.target_eq
  started := H.started
  once := H.once
  linked := by
    rw [hafter]
    exact Linked.concat (hbefore ▸ H.linked)
  told := List.forall_mem_append.2 ⟨H.told, List.forall_mem_singleton.2 hx⟩
  authors := List.forall_mem_append.2 ⟨H.authors, List.forall_mem_singleton.2 fun h =>
    absurd hsteps h⟩
  jobs t ht := by
    rw [stepsBy_concat_of_nil hsteps]
    exact H.jobs t ht
  ends e he := by
    rw [stepsBy_concat_of_nil hsteps]
    exact H.ends e he

theorem Accounts.holdPushes (H : Accounts target repository operations l c) :
    Accounts target repository operations l c.holdPushes :=
  { H with }

theorem Accounts.releasePush (H : Accounts target repository operations l c) (gate : Nat) :
    Accounts target repository operations l (c.releasePush gate) := by
  obtain ⟨gates, hdesk⟩ := releasePush_desk gate c
  obtain ⟨hstarted, hended, hnumbers⟩ := releasePush_kept gate c
  constructor
  case target_eq => rw [hdesk, H.target_eq]
  case started => rw [hstarted, H.started]
  case once => rw [hnumbers, hended, hstarted]; exact H.once
  case linked => rw [hdesk]; exact H.linked
  case told => exact H.told
  case authors => rw [hstarted]; exact H.authors
  case jobs =>
    intro t ht
    obtain ⟨u, hu, hnumber, hrest⟩ := exists_of_mem_releasePush ht
    exact hnumber ▸ hrest ▸ H.jobs u hu
  case ends => rw [hended]; exact H.ends

/-- A job that has had its turn is still under way, or has ended. -/
theorem numbers_record {α : Type} {c : Crew α} {r : Desk.Run α} {t : Task α} (ht : t ∈ c.tasks)
    (hnodup : (c.tasks.map (·.number)).Nodup) :
    ((record t.number r c).tasks.map (·.number) ++ (record t.number r c).ended.map (·.1)).Perm
      (c.tasks.map (·.number) ++ c.ended.map (·.1)) := by
  unfold record
  split
  · have hrest : (c.tasks.filter (·.number != t.number)).map (·.number) =
        (c.tasks.map (·.number)).erase t.number := by
      rw [hnodup.erase_eq_filter, List.filter_map]
      rfl
    have hback := List.perm_cons_erase (List.mem_map_of_mem (f := (·.number)) ht)
    simp only [hrest, List.map_append, List.map_singleton]
    rw [← List.append_assoc]
    exact (List.perm_append_singleton _ _).trans (hback.symm.append_right _)
  · refine List.Perm.append_right _ (.of_eq ?_)
    rw [List.map_map]
    refine List.map_congr_left fun u _ => ?_
    dsimp only [Function.comp]
    split <;> rfl

theorem Accounts.record (H : Accounts target repository operations l c) {t : Task Report}
    (ht : t ∈ c.tasks) (ready : List Nat) {r : Desk.Run Report}
    (hr : r = c.desk.work t.number t.passed t.rest) :
    Accounts target repository operations
      (l ++ [⟨some t.number, c.desk.repository, r.desk.repository,
        c.desk.steps t.number t.passed t.rest⟩])
      { record t.number r c with ready := ready } := by
  obtain ⟨hcareful, op, hop, hleads⟩ := H.jobs t ht
  have hleads' := hleads.trans (Desk.leads_steps t.number t.passed t.rest c.desk)
  rw [← hr] at hleads'
  have hcareful' : Careful c.desk.target false t.rest := H.target_eq ▸ hcareful
  have hreflects : Desk.Reflects (c.desk.steps t.number t.passed t.rest) c.desk r.desk :=
    hr ▸ Desk.work_reflects hcareful' nofun
  have htouched : MemoryRepository.Touched (c.desk.steps t.number t.passed t.rest)
      c.desk.repository r.desk.repository := hr ▸ Desk.work_touched t.rest
  constructor
  case target_eq => rw [record_desk, hreflects.target, H.target_eq]
  case started => rw [record_started, H.started]
  case once =>
    rw [record_started]
    exact (numbers_record ht (List.nodup_append.1 H.nodup).1).trans H.once
  case linked =>
    rw [record_desk]
    exact Linked.concat H.linked
  case told =>
    refine List.forall_mem_append.2 ⟨H.told, List.forall_mem_singleton.2 ?_⟩
    exact ⟨H.target_eq ▸ hreflects.commits, htouched.pushed, fun _ => htouched⟩
  case authors =>
    rw [record_started]
    refine List.forall_mem_append.2 ⟨H.authors, List.forall_mem_singleton.2 fun _ => ?_⟩
    exact ⟨t.number, H.lt_started ht, rfl⟩
  case jobs =>
    intro u hu
    obtain ⟨hu, hne⟩ | ⟨hu, hhalt⟩ := mem_record_tasks hu
    · rw [stepsBy_concat_of_ne fun h => hne (Option.some.inj h).symm]
      exact H.jobs u hu
    · rw [hhalt] at hleads'
      rw [hu, stepsBy_concat_self rfl]
      exact ⟨Desk.careful_of_work hcareful (hr ▸ hhalt), op, hop, hleads'⟩
  case ends =>
    intro e he
    obtain he | ⟨he, hhalt⟩ := mem_record_ended he
    · have hne : t.number ≠ e.1 := fun heq => (List.nodup_append.1 H.nodup).2.2 _
        (List.mem_map_of_mem ht) _ (List.mem_map_of_mem he) heq
      rw [stepsBy_concat_of_ne fun h => hne (Option.some.inj h)]
      exact H.ends e he
    · rw [hhalt] at hleads'
      rw [he, stepsBy_concat_self rfl]
      refine ⟨op, hop, ?_⟩
      have htranscript := hleads'.transcript .done
      rwa [List.append_nil] at htranscript

theorem Accounts.turn (H : Accounts target repository operations l c) :
    Accounts target repository operations (l ++ [⟨c.ready.head?, c.desk.repository,
      (c.turn?.getD c).desk.repository, c.turnSteps.map (·.2)⟩]) (c.turn?.getD c) := by
  have hidle (author : Option Nat) :
      Change.Told target ⟨author, c.desk.repository, c.desk.repository, []⟩ :=
    ⟨(List.append_nil _).symm, (List.append_nil _).symm, fun _ => .refl _⟩
  cases hturn : c.turn? with
  | none =>
    have hsteps : c.turnSteps = [] := by rw [turnSteps, ready_of_turn? hturn]
    rw [hsteps]
    exact H.concat (hidle _) rfl rfl rfl rfl c.ready
  | some c' =>
    obtain ⟨i, ready, hready, ⟨hi, hsteps, rfl⟩ | ⟨t, ht, rfl, hsteps, rfl⟩⟩ := turn?_cases hturn
    · rw [hsteps]
      exact H.concat (hidle _) rfl rfl rfl rfl ready
    · have hmap : ((c.desk.steps t.number t.passed t.rest).map (t.number, ·)).map (·.2) =
          c.desk.steps t.number t.passed t.rest := (List.map_map ..).trans (List.map_id _)
      have H' : Accounts target repository operations l { c with ready := ready } := { H with }
      rw [hsteps, hmap, hready]
      have hrecord := H'.record ht (ready ++ (c.desk.work t.number t.passed t.rest).woken) rfl
      rw [Option.getD_some, record_desk]
      exact hrecord

theorem Accounts.move (H : Accounts target repository operations l c) (m : Move) :
    Accounts target repository (operations ++ m.operation?.toList) (l ++ (c.change? m).toList)
      (c.move m) := by
  cases m with
  | save message =>
    have hjob := H.start (.save message)
    rw [← H.target_eq, ← Operation.startSave_eq, H.target_eq] at hjob
    exact (List.append_nil l).symm ▸ hjob
  | status =>
    have hjob := H.start .status
    rw [← H.target_eq, ← Operation.startStatus_eq, H.target_eq] at hjob
    exact (List.append_nil l).symm ▸ hjob
  | turn => exact (List.append_nil operations).symm ▸ H.turn
  | holdPushes =>
    exact (List.append_nil operations).symm ▸ (List.append_nil l).symm ▸ H.holdPushes
  | releasePush gate =>
    exact (List.append_nil operations).symm ▸ (List.append_nil l).symm ▸ H.releasePush gate
  | update r =>
    have htold : Change.Told target
        ⟨none, c.desk.repository, (c.move (.update r)).desk.repository, []⟩ :=
      ⟨(List.append_nil _).symm, (List.append_nil _).symm, fun h => absurd h Bool.false_ne_true⟩
    have hupdate := H.concat (d := (c.move (.update r)).desk) htold rfl rfl rfl rfl c.ready
    exact (List.append_nil operations).symm ▸ hupdate

theorem Accounts.run (H : Accounts target repository operations l c) (moves : List Move) :
    Accounts target repository (operations ++ moves.filterMap Move.operation?)
      (l ++ c.history moves) (c.run moves) := by
  induction moves generalizing operations l c with
  | nil =>
    rw [List.filterMap_nil, List.append_nil, history, List.append_nil]
    exact H
  | cons m moves ih =>
    have hrest := ih (H.move m)
    rw [List.append_assoc, List.append_assoc] at hrest
    have hcons : (m :: moves).filterMap Move.operation? =
        m.operation?.toList ++ moves.filterMap Move.operation? := by
      cases hm : m.operation? <;> simp [hm]
    rw [hcons, history]
    exact hrest

/-! ## The books -/

theorem Accounts.count {β : Type} (H : Accounts target repository operations l c)
    {f : Change → List β} (p : Report → Bool)
    (hf : ∀ x ∈ l, x.steps = [] → f x = [])
    (hended : ∀ e ∈ c.ended, ((changesBy e.1 l).flatMap f).length = (p e.2).toNat) :
    (l.flatMap f).length = c.ended.countP (p ·.2) +
      (c.tasks.map fun t => ((changesBy t.number l).flatMap f).length).sum := by
  have hauthor (x : Change) (hx : x ∈ l) (hne : f x ≠ []) :
      ∃ n ∈ c.tasks.map (·.number) ++ c.ended.map (·.1), x.author = some n := by
    obtain ⟨n, hn, hauthor⟩ := H.authors x hx fun hnil => hne (hf x hx hnil)
    exact ⟨n, H.once.symm.subset (List.mem_range.2 hn), hauthor⟩
  rw [length_flatMap_changes H.nodup hauthor, List.map_append, List.sum_append, List.map_map,
    List.map_map, Nat.add_comm, ← sum_map_toNat]
  exact congrArg (List.sum · + _) (List.map_congr_left hended)

theorem Accounts.told_by (H : Accounts target repository operations l c) (hx : x ∈ changesBy n l) :
    x.Told target ∧ MemoryRepository.Touched x.steps x.before x.after := by
  obtain ⟨hmem, hauthor⟩ := List.mem_filter.1 hx
  have htold := H.told x hmem
  exact ⟨htold, htold.touched (by rw [beq_iff_eq.1 hauthor]; rfl)⟩

/-- An operation that has asked for nothing but the branch has changed nothing. -/
theorem Accounts.same (H : Accounts target repository operations l c) (hx : x ∈ changesBy n l)
    (hcalls : ∀ r ∈ Job.callsOf (stepsBy n l), r.1 = .currentBranch) : x.after = x.before := by
  refine (H.told_by hx).2.same fun r hr => hcalls r ?_
  obtain ⟨s, hs, hcall⟩ := List.mem_filterMap.1 hr
  exact List.mem_filterMap.2 ⟨s, List.mem_flatMap.2 ⟨x, hx, hs⟩, hcall⟩

theorem Accounts.commits_by (H : Accounts target repository operations l c) {op : Operation}
    {r : Report} (h : (op.job target).Transcript (stepsBy n l) r) :
    (changesBy n l).flatMap Change.commits =
      if r.committed then [(target, op.message)] else [] := by
  rw [commits_of_told fun x hx => (H.told_by hx).1, ← stepsBy, Operation.commits_of_transcript h]
  split <;> rfl

theorem Accounts.pushes_by (H : Accounts target repository operations l c) {op : Operation}
    {r : Report} (h : (op.job target).Transcript (stepsBy n l) r) :
    (changesBy n l).flatMap Change.pushes =
      if r.pushed then [target ++ " --set-upstream"] else [] := by
  rw [pushes_of_told fun x hx => (H.told_by hx).1, ← stepsBy, Operation.pushes_of_transcript h]

theorem Accounts.each (H : Accounts target repository operations l c) (hx : x ∈ changesBy n l) :
    x.after.commits = x.before.commits ++ x.commits ∧
      x.after.pushed = x.before.pushed ++ x.pushes ∧
      x.after.dirty = (x.before.dirty && x.commits.isEmpty) ∧ x.after.flags = x.before.flags := by
  obtain ⟨htold, htouched⟩ := H.told_by hx
  refine ⟨?_, ?_, ?_, htouched.flags⟩
  · rw [htold.commits_eq, htold.commits]
  · rw [htold.pushes_eq, htold.pushed]
  · rw [htold.commits_eq, List.isEmpty_map, htouched.dirty]

theorem Accounts.effect (H : Accounts target repository operations l c) {o : SaveOutcome}
    (he : (n, .save o) ∈ c.ended) : ∃ message, operations[n]? = some (.save message) ∧
      SaveEffect target message o (changesBy n l) := by
  obtain ⟨op, hop, htranscript⟩ := H.ends _ he
  have hcalls := Operation.calls_of_transcript htranscript
  generalize hl : Job.callsOf (stepsBy n l) = calls at hcalls
  cases op with
  | status => cases hcalls
  | save message =>
    have hcommits := H.commits_by htranscript
    have hpushes := H.pushes_by htranscript
    refine ⟨message, hop, hcommits, hpushes, fun x hx => H.each hx, fun hkept x hx => ?_,
      fun hempty x hx => ?_⟩
    · obtain ⟨happended, hpushed, hdirty, -⟩ := H.each hx
      have hnot : o.pushed = false := by
        cases o with
        | saved => cases hkept
        | failed => rfl
      have hcommits' : x.commits = [] := List.flatMap_eq_nil_iff.1
        (hcommits.trans (if_neg (Bool.eq_false_iff.1 hkept))) x hx
      have hpushes' : x.pushes = [] := List.flatMap_eq_nil_iff.1
        (hpushes.trans (if_neg (Bool.eq_false_iff.1 hnot))) x hx
      rw [hcommits', List.append_nil] at happended
      rw [hpushes', List.append_nil] at hpushed
      rw [hcommits', List.isEmpty_nil, Bool.and_true] at hdirty
      exact ⟨happended, hpushed, hdirty⟩
    · refine H.same hx ?_
      rw [hl]
      subst hempty
      cases hcalls with
      | blank => exact nofun
      | save _ h =>
        cases h with
        | prepared _ h => cases h

theorem Accounts.read (H : Accounts target repository operations l c) {s : RepositoryStatus}
    (he : (n, .status s) ∈ c.ended) : ∀ x ∈ changesBy n l, x.after = x.before := by
  obtain ⟨op, -, htranscript⟩ := H.ends _ he
  have hcalls := Operation.calls_of_transcript htranscript
  intro x hx
  refine H.same hx ?_
  generalize Job.callsOf (stepsBy n l) = calls at hcalls
  cases hcalls with
  | unreadable | read => exact List.forall_mem_singleton.2 rfl

/-- The books of a crew are in order after every run. -/
theorem books (target : String) (repository : MemoryRepository)
    (review : Except ReviewFailure (Option String)) (moves : List Move) :
    let c := opened target repository review
    Books target repository (moves.filterMap Move.operation?) (c.history moves) (c.run moves) := by
  intro c
  have H := (accounts_opened target repository review).run moves
  rw [List.nil_append, List.nil_append] at H
  constructor
  case linked => exact H.linked
  case once => exact H.started ▸ H.once
  case effect => exact fun n o he => H.effect he
  case read => exact fun n s he => H.read he
  case commits => exact H.linked.commits H.told
  case pushed => exact H.linked.pushed H.told
  case on_target =>
    intro e he
    rw [commits_of_told H.told] at he
    obtain ⟨m, -, rfl⟩ := List.mem_map.1 he
    rfl
  case commits_length =>
    refine H.count Report.committed (fun x hx hsteps => ?_) fun e he => ?_
    · rw [(H.told x hx).commits_eq, hsteps]
      rfl
    · obtain ⟨op, -, htranscript⟩ := H.ends e he
      rw [H.commits_by htranscript]
      cases e.2.committed <;> rfl
  case pushes_length =>
    refine H.count Report.pushed (fun x hx hsteps => ?_) fun e he => ?_
    · rw [(H.told x hx).pushes_eq, hsteps]
      rfl
    · obtain ⟨op, -, htranscript⟩ := H.ends e he
      rw [H.pushes_by htranscript]
      cases e.2.pushed <;> rfl

end Crew
end PublishDesk
