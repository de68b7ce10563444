import PublishDesk.Text.Blank

/-!
# Saves

A save puts the pending changes of a working tree on the target branch and publishes them. These
are the words in which a save is asked for and answered.
-/

namespace PublishDesk

/-- Whether a commit message holds nothing but blanks. -/
def isBlankMessage (message : String) : Bool := Text.isBlankText message.toList

/-- The branch that a working tree is on. -/
structure BranchState where
  name : String
  isTarget : Bool
deriving DecidableEq, Repr

def BranchState.observe (name target : String) : BranchState := ⟨name, name == target⟩

/-- What a status read of a repository found. The branch is missing if it could not be read. -/
structure RepositoryStatus where
  branch : Option BranchState := none
  reviewLink : Option String := none
deriving DecidableEq, Repr

/-- What became of an attempt to commit. -/
inductive CommitOutcome where
  | committed
  | nothingToCommit
deriving DecidableEq, Repr

/-- The step at which a save stopped. -/
inductive SaveFailure where
  | emptyMessage
  | branch (branch reason : String)
  | nothingToCommit
  | commit (reason : String)
  | push (branch reason : String)
deriving DecidableEq, Repr

def SaveFailure.message : SaveFailure → String
  | .emptyMessage => "commit message is empty"
  | .branch b r => "could not switch to branch '" ++ b ++ "': " ++ r
  | .nothingToCommit => "nothing to commit"
  | .commit r => "commit failed: " ++ r
  | .push b r => "push of '" ++ b ++ "' failed: " ++ r

/-- How a save ended. -/
inductive SaveOutcome where
  | saved
  | failed (failure : SaveFailure)
deriving DecidableEq, Repr

/-- What a view is told of a save. -/
def SaveOutcome.ok : SaveOutcome → Bool
  | .saved => true
  | .failed _ => false

end PublishDesk
