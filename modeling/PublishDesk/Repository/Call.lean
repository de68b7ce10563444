import PublishDesk.Save.Basic

/-!
# Calls to a repository

What a save or a status read asks of a repository. Every call may fail, with a reason in words.
-/

namespace PublishDesk

inductive RepositoryCall where
  /-- The name of the branch that is checked out. -/
  | currentBranch
  /-- The names of all local branches. -/
  | branches
  | checkout (branch : String)
  /-- Create a branch and check it out. -/
  | checkoutNew (branch : String)
  /-- Stage all changes and commit them. -/
  | commit (message : String)
  | push (branch : String) (setUpstream : Bool)
deriving DecidableEq, Repr

namespace RepositoryCall

/-- What a call gives if it does not fail. -/
@[reducible] def Result : RepositoryCall → Type
  | .currentBranch => String
  | .branches => List String
  | .commit _ => CommitOutcome
  | .checkout _ | .checkoutNew _ | .push _ _ => Unit

abbrev Answer (c : RepositoryCall) : Type := Except String c.Result

end RepositoryCall
end PublishDesk
