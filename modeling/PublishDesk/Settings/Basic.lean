import PublishDesk.Text.Blank

/-!
# Settings

The settings of a workspace, with the values they have where nothing is said. `Settings.check` says
which rule they break first, if any.
-/

namespace PublishDesk

/-- How the worker is started, and how the site that it serves is found. -/
structure WorkerSettings where
  /-- The program and its arguments. -/
  command : List String := ["reSsg", "serve"]
  /-- The name of the file that marks the directory of the site. -/
  siteConfig : String := "config.toml"
  /-- How deep the search for that file goes. -/
  maxDepth : Nat := 4
deriving DecidableEq, Repr

/-- The service where saved changes are reviewed. -/
inductive ReviewService where
  | none
  | gh
deriving DecidableEq, Repr

structure RepositorySettings where
  /-- The branch that all saves go to. -/
  targetBranch : String := "updates"
  remote : String := "origin"
  review : ReviewService := .none
deriving DecidableEq, Repr

/-- Times are in milliseconds. -/
structure ViewSettings where
  /-- How often a view asks for the status. -/
  pollInterval : Nat := 1000
  /-- How long the outcome of a save is shown. -/
  indicatorClear : Nat := 1000
  /-- The least length of a commit message. -/
  minMessageLength : Nat := 10
deriving DecidableEq, Repr

structure Settings where
  worker : WorkerSettings := {}
  repository : RepositorySettings := {}
  view : ViewSettings := {}
deriving DecidableEq, Repr

/-- The rules that settings have to keep. -/
inductive SettingsRule where
  | command
  | siteConfig
  | targetBranch
  | remote
  | pollInterval
  | indicatorClear
deriving DecidableEq, Repr

namespace SettingsRule

/-- The rules in the order in which they are checked. -/
def all : List SettingsRule :=
  [.command, .siteConfig, .targetBranch, .remote, .pollInterval, .indicatorClear]

def message : SettingsRule → String
  | .command => "worker.command must be a non-empty array"
  | .siteConfig => "worker.site_config must not be empty"
  | .targetBranch => "vcs.target_branch must not be empty"
  | .remote => "vcs.remote must not be empty"
  | .pollInterval => "ui.poll_interval_ms must be > 0"
  | .indicatorClear => "ui.indicator_clear_ms must be > 0"

/-- Whether settings break a rule. A command without a program name is empty. -/
def brokenBy (s : Settings) : SettingsRule → Bool
  | .command => match s.worker.command with
    | [] => true
    | program :: _ => Text.isBlankText program.toList
  | .siteConfig => Text.isBlankText s.worker.siteConfig.toList
  | .targetBranch => Text.isBlankText s.repository.targetBranch.toList
  | .remote => Text.isBlankText s.repository.remote.toList
  | .pollInterval => s.view.pollInterval == 0
  | .indicatorClear => s.view.indicatorClear == 0

end SettingsRule

/-- The first rule that settings break. -/
def Settings.check (s : Settings) : Except SettingsRule Unit :=
  match SettingsRule.all.find? (SettingsRule.brokenBy s) with
  | none => .ok ()
  | some r => .error r

/-- The name of the settings file in a workspace. -/
def settingsFileName : String := "panel.toml"

end PublishDesk
