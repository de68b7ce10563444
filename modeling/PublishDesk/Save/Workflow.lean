import PublishDesk.Program
import PublishDesk.Repository.Git
import PublishDesk.Repository.Review

/-!
# Saving and looking

A save puts all changes on the target branch, commits them and pushes the branch; the first step
that fails ends it, and nothing is undone. A status read asks which branch is checked out and, on
the target branch, for the open review. Both hold the working tree while they use the repository, so
that none of them sees another half done.
-/

namespace PublishDesk

/-- What a save or a status read asks of its surroundings. -/
inductive TreeStep where
  /-- Wait until the working tree is free, and take it. -/
  | acquire
  /-- Let go of the working tree. -/
  | release
  | repository (call : RepositoryCall)
  | findReview (branch : String)
deriving DecidableEq, Repr

/-- The answer to a step. -/
@[reducible] def TreeStep.Answer : TreeStep → Type
  | .acquire | .release => Unit
  | .repository c => c.Answer
  | .findReview _ => Except ReviewFailure (Option String)

abbrev Workflow := Program TreeStep TreeStep.Answer

namespace Workflow

/-- Push the target branch. -/
def push (target : String) : Workflow SaveOutcome :=
  .ask (.repository (.push target true)) fun
    | .ok () => .done .saved
    | .error reason => .done (.failed (.push target reason))

/-- Commit all changes, and push them. -/
def commit (target message : String) : Workflow SaveOutcome :=
  .ask (.repository (.commit message)) fun
    | .ok .committed => push target
    | .ok .nothingToCommit => .done (.failed .nothingToCommit)
    | .error reason => .done (.failed (.commit reason))

/-- Make sure that the target branch is checked out now, and go on. -/
def confirm (target : String) (next : Workflow SaveOutcome) : Workflow SaveOutcome :=
  .ask (.repository .currentBranch) fun
    | .ok name =>
      if name = target then next
      else .done (.failed (.branch target ("still on '" ++ name ++ "' after checkout")))
    | .error reason => .done (.failed (.branch target reason))

/-- Check the target branch out, creating it if there is none, and go on. -/
def switch (target : String) (next : Workflow SaveOutcome) : Workflow SaveOutcome :=
  .ask (.repository .branches) fun
    | .error reason => .done (.failed (.branch target reason))
    | .ok names =>
      if names.contains target then
        .ask (.repository (.checkout target)) fun
          | .ok () => confirm target next
          | .error reason => .done (.failed (.branch target reason))
      else
        .ask (.repository (.checkoutNew target)) fun
          | .ok () => confirm target next
          | .error reason => .done (.failed (.branch target reason))

/-- A save that holds the working tree. A branch that cannot be read is left like any other. -/
def publish (target message : String) : Workflow SaveOutcome :=
  .ask (.repository .currentBranch) fun
    | .ok name =>
      if name = target then commit target message else switch target (commit target message)
    | .error _ => switch target (commit target message)

/-- A save. A blank message ends it before it waits for anything. -/
def save (target message : String) : Workflow SaveOutcome :=
  if isBlankMessage message then .done (.failed .emptyMessage)
  else .ask .acquire fun () =>
    (publish target message).bind fun outcome => .ask .release fun () => .done outcome

/-- A status read. Whatever cannot be read is missing from it. -/
def status (target : String) : Workflow RepositoryStatus :=
  .ask .acquire fun () =>
  .ask (.repository .currentBranch) fun current =>
  .ask .release fun () =>
    match current with
    | .error _ => .done {}
    | .ok name =>
      if name = target then
        .ask (.findReview name) fun link =>
          .done ⟨some (BranchState.observe name target), link.toOption.join⟩
      else .done ⟨some (BranchState.observe name target), none⟩

/-- Answer the steps of one workflow on its own by external commands. Nobody else wants the
working tree then. -/
def commands (remote : String) (service : ReviewService) : (s : TreeStep) → Commands s.Answer
  | .acquire | .release => .done ()
  | .repository c => Git.answer remote c
  | .findReview b => Review.find service b

end Workflow
end PublishDesk
