import PublishDesk.Command.Basic
import PublishDesk.Repository.Call
import PublishDesk.Text.Lines
import PublishDesk.Text.Utf8

/-!
# Repositories kept by git

Every call is one run of `git`, but for a commit: that stages all changes, looks whether any are
staged, and commits them only then. The first run that fails ends the call.
-/

namespace PublishDesk.Git

def command (arguments : List String) : Command := ⟨"git", arguments⟩

/-- The text of an output, without the blanks at its ends. -/
def trimmed (output : List UInt8) : String :=
  String.ofList (Text.trim (Text.Utf8.decodeLossy output))

/-- What `git` wrote, or why it has no answer: it did not start, or it failed and said so. -/
def outputOf (c : Command) : Except StartFailure Finished → Except String (List UInt8)
  | .error e => .error ("spawn " ++ c.line ++ ": " ++ e.message)
  | .ok f =>
    if f.succeeded then .ok f.output else .error (c.line ++ " failed: " ++ trimmed f.errors)

/-- Run `git` and go on with what it wrote, unless it failed. -/
def andThen {α : Type} (arguments : List String) (next : List UInt8 → Commands (Except String α)) :
    Commands (Except String α) :=
  .ask (command arguments) fun answer =>
    match outputOf (command arguments) answer with
    | .error reason => .done (.error reason)
    | .ok output => next output

/-- The branch that is printed; a detached head has none. -/
def readBranch (output : List UInt8) : Except String String :=
  if trimmed output = "HEAD" then .error "detached HEAD" else .ok (trimmed output)

/-- The branches that are printed, one on a line. -/
def readBranches (output : List UInt8) : List String :=
  (((Text.lines (Text.Utf8.decodeLossy output)).map Text.trim).filter (!·.isEmpty)).map
    String.ofList

def currentBranch : Commands (Except String String) :=
  andThen ["rev-parse", "--abbrev-ref", "HEAD"] fun output => .done (readBranch output)

def branches : Commands (Except String (List String)) :=
  andThen ["for-each-ref", "--format=%(refname:short)", "refs/heads"] fun output =>
    .done (.ok (readBranches output))

/-- Whether changes are staged: whether `git` prints the name of a staged file. -/
def hasStagedChanges : Commands (Except String Bool) :=
  andThen ["diff", "--cached", "--name-only"] fun output => .done (.ok (trimmed output != ""))

def commit (message : String) : Commands (Except String CommitOutcome) :=
  andThen ["add", "-A"] fun _ =>
    hasStagedChanges.bind fun
      | .error reason => .done (.error reason)
      | .ok false => .done (.ok .nothingToCommit)
      | .ok true => andThen ["commit", "-m", message] fun _ => .done (.ok .committed)

def pushArguments (remote branch : String) (setUpstream : Bool) : List String :=
  "push" :: (if setUpstream then ["--set-upstream"] else []) ++ [remote, branch]

/-- Answer a call for a repository with the given remote. -/
def answer (remote : String) : (c : RepositoryCall) → Commands c.Answer
  | .currentBranch => currentBranch
  | .branches => branches
  | .checkout b => andThen ["checkout", b] fun _ => .done (.ok ())
  | .checkoutNew b => andThen ["checkout", "-b", b] fun _ => .done (.ok ())
  | .commit m => commit m
  | .push b u => andThen (pushArguments remote b u) fun _ => .done (.ok ())

end PublishDesk.Git
