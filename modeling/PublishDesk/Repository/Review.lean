import PublishDesk.Command.Basic
import PublishDesk.Message.Frame
import PublishDesk.Settings.Basic
import PublishDesk.Text.Lines
import PublishDesk.Text.Utf8

/-!
# Open reviews

The changes on a branch may be under review. `gh` lists the open reviews of a branch as JSON; the
first of them that has a link is taken.
-/

namespace PublishDesk

/-- Why no open review could be looked up. -/
inductive ReviewFailure where
  | failed (reason : String)
  | unreadable (failure : Json.Failure)
deriving DecidableEq, Repr

namespace Review

def command (branch : String) : Command :=
  ⟨"gh", ["pr", "list", "--head", branch, "--state", "open", "--json", "url", "--limit", "1"]⟩

/-- The first line that is not blank, without the blanks at its ends. -/
def firstLine (text : List Char) : String :=
  match ((Text.lines text).map Text.trim).find? (!·.isEmpty) with
  | none => "no output"
  | some l => String.ofList l

/-- One review as it is listed: its link. -/
def linkRecord : Json.Record (Option String) String :=
  singleField "struct GhPullRequest" "url" Json.Doc.readText

/-- The first link in a list of reviews that is not blank. -/
def readList (text : List Char) : Except Json.Failure (Option String) :=
  (Json.readDoc (Json.Doc.readList (linkRecord.read .streamed)) (Text.trim text)).map
    (·.find? fun link => !Text.isBlankText link.toList)

/-- What the answer of `gh` says. -/
def readAnswer : Except StartFailure Finished → Except ReviewFailure (Option String)
  | .error e => .error (.failed ("spawn gh pr list: " ++ e.message))
  | .ok f =>
    if f.succeeded then (readList (Text.Utf8.decodeLossy f.output)).mapError .unreadable
    else .error (.failed ("gh pr list failed: " ++ firstLine (Text.Utf8.decodeLossy f.errors)))

/-- Look up the open review of a branch. -/
def find (service : ReviewService) (branch : String) :
    Commands (Except ReviewFailure (Option String)) :=
  match service with
  | .none => .done (.ok none)
  | .gh => .ask (command branch) fun answer => .done (readAnswer answer)

end Review
end PublishDesk
