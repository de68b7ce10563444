import PublishDesk.CommandLine.Options
import PublishDesk.Path

/-!
# The arguments of the two programs

`panel` works on a workspace or acts as a view of a host; `panel-host` is the host. An option that
is given for both a program and one of its commands counts for the command.
-/

namespace PublishDesk.CommandLine

/-- Where a host listens unless told otherwise. -/
def defaultHostUrl : String := "http://127.0.0.1:7878"

/-- What arguments ask for. -/
inductive Asked (α : Type) where
  /-- The arguments are not understood. -/
  | misuse
  /-- How the program is used. -/
  | usage
  /-- The version of the program. -/
  | version
  | run (invocation : α)

namespace Asked

/-- Go on with options that have been read. -/
def ofReading {α : Type} (r : Option Reading)
    (next : Given → Option (String × List String) → Asked α) : Asked α :=
  match r with
  | none => .misuse
  | some (.requested name) => if name == "version" then .version else .usage
  | some (.options given rest) => next given rest

/-- What is understood is run. -/
def ofOption {α : Type} : Option α → Asked α
  | none => .misuse
  | some a => .run a

end Asked

/-! ## `panel` -/

inductive PanelCommand where
  /-- Write a settings file. -/
  | init (force : Bool)
  /-- Print the site of the workspace. -/
  | discover
  /-- Watch the status of a host. -/
  | attach (url : String)
  /-- Have a host save the pending changes. -/
  | save (url message : String) (timeoutSeconds : Nat)
deriving DecidableEq, Repr

structure PanelInvocation where
  workspace : Path
  command : PanelCommand
deriving DecidableEq, Repr

/-- How `panel` is used. -/
def panelUsage : List String := [
  "Usage: panel [--workspace DIR] COMMAND",
  "",
  "  init [--force]              write a settings file",
  "  discover                    print the site of the workspace",
  "  attach [--url URL]          watch the status of a host",
  "  save --message TEXT [--url URL] [--timeout-secs N]",
  "                              have a host save the pending changes"]

def panelVersion : String := "panel 0.1.0"

def helpOption : OptionShape := { name := "help", short := some 'h', kind := .request }

def workspaceOption : OptionShape := { name := "workspace" }

/-- The options of a command besides those of every command; none if there is no such command. -/
def commandOptions? : String → Option (List OptionShape)
  | "init" => some [{ name := "force", short := some 'f', kind := .flag }]
  | "discover" => some []
  | "attach" => some [{ name := "url" }]
  | "save" => some [{ name := "url" }, { name := "message", short := some 'm' },
      { name := "timeout-secs" }]
  | _ => none

/-- A command with its options. -/
def panelCommand? (name : String) (given : Given) : Option PanelCommand :=
  let url := (given.lookup "url").getD defaultHostUrl
  match name with
  | "init" => some (.init (given.lookup "force").isSome)
  | "discover" => some .discover
  | "attach" => some (.attach url)
  | "save" => do
    let message ← given.lookup "message"
    let timeout ← natValue? 0xffffffffffffffff ((given.lookup "timeout-secs").getD "120")
    return .save url message timeout
  | _ => none

/-- The workspace among the options of a program and of its command. -/
def workspace? (outer inner : Given) : Option Path := do
  let outer ← pathValue? ((outer.lookup "workspace").getD ".")
  match inner.lookup "workspace" with
  | none => return outer
  | some text => pathValue? text

def readPanel (words : List String) : Asked PanelInvocation :=
  let shapes := [workspaceOption, helpOption,
    { name := "version", short := some 'V', kind := .request }]
  .ofReading (readOptions shapes words) fun outer rest =>
    match rest with
    | none => .misuse
    | some ("help", []) => .usage
    | some ("help", [name]) =>
      if (commandOptions? name).isSome || name == "help" then .usage else .misuse
    | some (name, words) =>
      match commandOptions? name with
      | none => .misuse
      | some shapes =>
        .ofReading (readOptions (workspaceOption :: helpOption :: shapes) words) fun inner rest =>
          if rest.isSome then .misuse
          else .ofOption do
            return ⟨← workspace? outer inner, ← panelCommand? name inner⟩

/-! ## `panel-host` -/

structure HostInvocation where
  bind : String
  port : Nat
  workspace : Path
  /-- The settings file, if it is not that of the workspace. -/
  config : Option Path
  /-- The directory with the files of the view, if it is not that of the workspace. -/
  uiDirectory : Option Path
deriving DecidableEq, Repr

/-- How `panel-host` is used. -/
def hostUsage : List String := [
  "Usage: panel-host [--bind ADDRESS] [--port PORT] [--workspace DIR] [--config FILE]",
  "    [--ui-dir DIR]"]

/-- A path that may be missing. -/
def optionalPath? (given : Given) (name : String) : Option (Option Path) :=
  match given.lookup name with
  | none => some none
  | some text => (pathValue? text).map some

def readHost (words : List String) : Asked HostInvocation :=
  let shapes : List OptionShape :=
    [{ name := "bind" }, { name := "port" }, workspaceOption, { name := "config" },
      { name := "ui-dir" }, helpOption]
  .ofReading (readOptions shapes words) fun given rest =>
    if rest.isSome then .misuse
    else .ofOption do
      return {
        bind := (given.lookup "bind").getD "127.0.0.1"
        port := ← natValue? 0xffff ((given.lookup "port").getD "7878")
        workspace := ← workspace? given []
        config := ← optionalPath? given "config"
        uiDirectory := ← optionalPath? given "ui-dir" }

end PublishDesk.CommandLine
