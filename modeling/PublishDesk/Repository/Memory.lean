import PublishDesk.Repository.Call

/-!
# Repositories in memory

A repository as plain data, with flags that make its calls fail. It keeps the commits and pushes
made in it and the calls that would change it, whether they succeeded or not.
-/

namespace PublishDesk

structure MemoryRepository where
  /-- The branch that is checked out; it cannot be read if there is none. -/
  current : Option String := none
  branches : List String := []
  /-- Whether there are changes that are not committed. -/
  dirty : Bool := false
  failCheckout : Bool := false
  failCommit : Bool := false
  failPush : Bool := false
  /-- Branch and message of each commit, oldest first. -/
  commits : List (String × String) := []
  /-- The successful pushes, oldest first. -/
  pushed : List String := []
  /-- The calls that change the repository, oldest first. -/
  calls : List String := []
deriving DecidableEq, Repr

namespace MemoryRepository

/-- Note a call. -/
def noteCall (r : MemoryRepository) (call : String) : MemoryRepository :=
  { r with calls := r.calls ++ [call] }

def checkout (branch : String) (r : MemoryRepository) : Except String Unit × MemoryRepository :=
  let r := r.noteCall ("checkout " ++ branch)
  if r.failCheckout then (.error "checkout refused", r)
  else if r.branches.contains branch then (.ok (), { r with current := some branch })
  else (.error ("pathspec '" ++ branch ++ "' did not match"), r)

def checkoutNew (branch : String) (r : MemoryRepository) : Except String Unit × MemoryRepository :=
  let r := r.noteCall ("checkout_new " ++ branch)
  if r.failCheckout then (.error "checkout refused", r)
  else if r.branches.contains branch then
    (.error ("a branch named '" ++ branch ++ "' already exists"), r)
  else (.ok (), { r with branches := r.branches ++ [branch], current := some branch })

def commit (message : String) (r : MemoryRepository) :
    Except String CommitOutcome × MemoryRepository :=
  let r := r.noteCall "commit"
  if r.failCommit then (.error "pre-commit hook failed", r)
  else if r.dirty then
    (.ok .committed,
      { r with dirty := false, commits := r.commits ++ [(r.current.getD "", message)] })
  else (.ok .nothingToCommit, r)

def push (branch : String) (setUpstream : Bool) (r : MemoryRepository) :
    Except String Unit × MemoryRepository :=
  let r := r.noteCall ("push " ++ branch)
  if r.failPush then (.error "could not resolve host", r)
  else
    (.ok (), { r with
      pushed := r.pushed ++ [if setUpstream then branch ++ " --set-upstream" else branch] })

/-- Answer a call. -/
def answer : (c : RepositoryCall) → MemoryRepository → c.Answer × MemoryRepository
  | .currentBranch, r => (match r.current with
    | none => .error "detached HEAD"
    | some b => .ok b, r)
  | .branches, r => (.ok r.branches, r)
  | .checkout b, r => r.checkout b
  | .checkoutNew b, r => r.checkoutNew b
  | .commit m, r => r.commit m
  | .push b u, r => r.push b u

end MemoryRepository
end PublishDesk
