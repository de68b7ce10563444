import PublishDesk.Diagnosis
import PublishDesk.FileSystem.Access
import PublishDesk.Settings.Basic
import PublishDesk.Text.Utf8
import PublishDesk.Toml.Document
import PublishDesk.Toml.Record

/-!
# Reading settings

`Settings.ofText` reads the text of a settings file: every entry that is present replaces a default.
`Settings.ofFile` also covers the file itself, which need not exist.
-/

namespace PublishDesk
open Toml

namespace Settings

def workerFields : List (RecordField WorkerSettings) := [
  { name := "command", read := fun v s => v.readTexts.map fun c => { s with command := c } },
  { name := "site_config", read := fun v s => v.readText.map fun f => { s with siteConfig := f } },
  { name := "discovery_max_depth"
    read := fun v s => (v.readWord "usize").map fun n => { s with maxDepth := n } }]

def repositoryFields : List (RecordField RepositorySettings) := [
  { name := "target_branch"
    read := fun v s => v.readText.map fun b => { s with targetBranch := b } },
  { name := "remote", read := fun v s => v.readText.map fun r => { s with remote := r } },
  { name := "review"
    read := fun v s =>
      (v.readChoice [("none", ReviewService.none), ("gh", .gh)]).map fun r =>
        { s with review := r } }]

def viewFields : List (RecordField ViewSettings) := [
  { name := "poll_interval_ms"
    read := fun v s => (v.readWord "u64").map fun n => { s with pollInterval := n } },
  { name := "indicator_clear_ms"
    read := fun v s => (v.readWord "u64").map fun n => { s with indicatorClear := n } },
  { name := "min_commit_message_len"
    read := fun v s => (v.readWord "usize").map fun n => { s with minMessageLength := n } }]

/-- A section that is present replaces the defaults by what it says. -/
def fields : List (RecordField Settings) := [
  { name := "worker"
    read := fun v s =>
      (v.readRecord "struct WorkerConfig" workerFields {}).map fun w => { s with worker := w } },
  { name := "vcs"
    read := fun v s =>
      (v.readRecord "struct VcsConfig" repositoryFields {}).map fun r =>
        { s with repository := r } },
  { name := "ui"
    read := fun v s =>
      (v.readRecord "struct UiConfig" viewFields {}).map fun u => { s with view := u } }]

/-- The settings that a table holds. -/
def ofToml (v : Value) : Except Shape.Mismatch Settings :=
  v.readRecord "struct PanelConfig" fields {}

end Settings

/-- Why settings could not be loaded. -/
inductive SettingsError where
  /-- The file cannot be read as text. -/
  | unreadable (reason : String)
  /-- The text is not a TOML document. -/
  | malformed
  | shape (mismatch : Shape.Mismatch)
  | invalid (rule : SettingsRule)
deriving DecidableEq, Repr

/-- What is found at the path of a file. -/
inductive FileContent where
  | missing
  | directory
  | bytes (content : List UInt8)
deriving DecidableEq, Repr

namespace Settings

/-- The settings of a text. -/
def ofText (cs : List Char) : Except SettingsError Settings := do
  match Document.read? cs with
  | none => throw .malformed
  | some v =>
    let s ← (ofToml v).mapError .shape
    s.check.mapError .invalid
    return s

/-- The settings of a file; without a file the defaults hold. -/
def ofFile : FileContent → Except SettingsError Settings
  | .missing => .ok {}
  | .directory => .error (.unreadable FileError.isDirectory.message)
  | .bytes bs => match Text.Utf8.decode? bs with
    | none => .error (.unreadable "stream did not contain valid UTF-8")
    | some cs => ofText cs

/-- Load the settings at a path. -/
def load (path : Path) : Program Access Access.Answer (Except SettingsError Settings) :=
  .ask (.isThere path) fun isThere =>
    if isThere then
      .ask (.content path) fun
        | .ok content => .done (ofFile (.bytes content))
        | .error e => .done (.error (.unreadable e.message))
    else .done (ofFile .missing)

end Settings

/-- The failure to load settings from a path. -/
def SettingsError.diagnosis (path : Path) (e : SettingsError) : Diagnosis :=
  let here (what : String) := what ++ " " ++ String.ofList path
  match e with
  | .unreadable reason => ⟨here "read", [reason]⟩
  | .malformed => ⟨here "parse", ["not a TOML document"]⟩
  | .shape m => ⟨here "parse", [String.ofList (m.message Decimal.positionalLayout)]⟩
  | .invalid rule => ⟨here "invalid", [rule.message]⟩

end PublishDesk
