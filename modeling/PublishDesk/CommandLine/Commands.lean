import PublishDesk.Client.ViewRun
import PublishDesk.CommandLine.Arguments
import PublishDesk.Discovery
import PublishDesk.Endpoint.Address
import PublishDesk.FileSystem.Access
import PublishDesk.Settings.File

/-!
# Commands

Each command is a program that accesses files and makes requests. Most end there; the commands that
have connected to a host go on as views.
-/

namespace PublishDesk.CommandLine

/-- What a command asks of its surroundings. -/
inductive Errand where
  | access (access : Access)
  /-- A request to the host at a base address. -/
  | request (base : String) (request : Outgoing)
deriving DecidableEq, Repr

@[reducible] def Errand.Answer : Errand → Type
  | .access a => a.Answer
  | .request _ _ => Reply

abbrev Errands := Program Errand Errand.Answer

namespace Errands

/-- A program on files. -/
def ofAccess {α : Type} (p : Program Access Access.Answer α) : Errands α :=
  p.expand fun a => Program.question (Errand.access a)

/-- A program that changes files. -/
def ofWriting {α : Type} (p : Writing α) : Errands α :=
  p.expand fun c => Program.question (Errand.access (.change c))

/-- A program of requests to one host. -/
def ofRequests {α : Type} (base : String) (p : Requests α) : Errands α :=
  p.expand fun r => Program.question (Errand.request base r)

end Errands

/-- What a command comes to. -/
inductive Outcome where
  | ended (ending : Ending)
  /-- A view waits for the result of a save. -/
  | saving (run : SaveRun)
  /-- A view watches the status. -/
  | watching (run : WatchRun)

/-- The end of a command that could not do what it was asked for. -/
def failed (d : Diagnosis) : Outcome := .ended (Ending.ofDiagnosis d)

/-- The end of a command that has printed one line. -/
def printed (line : List Char) : Outcome :=
  .ended { code := Ending.succeeded, output := [String.ofList line] }

/-- The code of a program whose arguments are not understood. -/
def misused : Nat := 2

/-- How a program ends whose arguments ask for nothing to be run; else what they ask for. -/
def Asked.started {α : Type} (usage : List String) : Asked α → Except Ending α
  | .misuse => .error { code := misused, errors := usage }
  | .usage => .error { code := Ending.succeeded, output := usage }
  | .version => .error { code := Ending.succeeded, output := [panelVersion] }
  | .run a => .ok a

/-! ## On a workspace -/

/-- Write the default settings. -/
def init (workspace : Path) (force : Bool) : Errands Outcome :=
  let path := Settings.pathIn workspace
  .ask (.access (.isThere path)) fun isThere =>
    if isThere && !force then
      .done (failed ⟨String.ofList path ++ " already exists (use --force to overwrite)", []⟩)
    else
      (Errands.ofWriting (Settings.store {} path)).map fun
        | .error e => failed e.diagnosis
        | .ok () => printed path

/-- Load settings, and go on unless they cannot be loaded. -/
def withSettings {α : Type} (path : Path) (onFailure : Diagnosis → α)
    (next : Settings → Errands α) : Errands α :=
  (Errands.ofAccess (Settings.load path)).bind fun
    | .error e => .done (onFailure (e.diagnosis path))
    | .ok s => next s

/-- Find the site of a workspace. -/
def findSite (workspace : Path) (s : Settings) : Errands (Option Path) :=
  .ask (.access (.survey workspace)) fun tree =>
    .done <| (tree.bind (Discovery.findFrom? (Route.ofBytes (Text.Utf8.encode workspace))
      (Text.Utf8.encode s.worker.siteConfig.toList) s.worker.maxDepth)).map
        (Discovery.sitePath workspace)

/-- Print the site of a workspace. -/
def discover (workspace : Path) : Errands Outcome :=
  withSettings (Settings.pathIn workspace) failed fun s =>
    (findSite workspace s).map fun
      | some site => printed site
      | none => .ended
        { code := Ending.invalid
          errors := ["no unique " ++ s.worker.siteConfig ++ " found under " ++
            String.ofList workspace] }

/-! ## As a view -/

/-- Connect to a host, and go on as a view. -/
def connect (url : String) (settings : ViewSettings) (next : ViewRun → Outcome) : Errands Outcome :=
  let base := Transport.baseUrl url
  (Errands.ofRequests base (Transport.connect base)).map fun
    | .error e => failed e.diagnosis
    | .ok () => next (ViewRun.connected settings)

/-- Wait for a save. -/
def save (message : String) (timeoutSeconds : Nat) (view : ViewRun) : Outcome :=
  match SaveRun.start message timeoutSeconds view with
  | .error ending => .ended ending
  | .ok run => .saving run

/-- Run a command of `panel`. -/
def runPanel (i : PanelInvocation) : Errands Outcome :=
  let settings := Settings.pathIn i.workspace
  match i.command with
  | .init force => init i.workspace force
  | .discover => discover i.workspace
  | .attach url =>
    withSettings settings failed fun s =>
      connect url s.view fun view => .watching (WatchRun.start view)
  | .save url message timeout =>
    withSettings settings failed fun s => connect url s.view (save message timeout)

/-- Run `panel` with the given arguments. -/
def panel (words : List String) : Errands Outcome :=
  match (readPanel words).started panelUsage with
  | .error ending => .done (.ended ending)
  | .ok i => runPanel i

/-! ## The host -/

/-- What a host starts with. -/
structure HostPlan where
  settings : Settings
  workspace : Path
  /-- The site that the worker is started for, if there is one. -/
  site : Option Path
  bind : String
  port : Nat
  uiDirectory : Path
deriving DecidableEq, Repr

/-- How the start of a host fails. -/
def hostFailed (d : Diagnosis) : Ending :=
  { code := Ending.invalid, errors := ["Error: " ++ d.report] }

/-- Prepare the start of a host. The address is looked at last. -/
def prepareHost (i : HostInvocation) : Errands (Except Ending HostPlan) :=
  .ask (.access (.canonical i.workspace)) fun canonical =>
    let workspace := canonical.getD i.workspace
    let path := i.config.getD (Settings.pathIn workspace)
    withSettings path (fun d => .error (hostFailed d)) fun s =>
      (findSite workspace s).map fun site =>
        if Address.isValid i.bind then
          .ok ⟨s, workspace, site, i.bind, i.port,
            i.uiDirectory.getD ((workspace.join "ui".toList).join "dist".toList)⟩
        else .error (hostFailed ⟨"invalid socket address syntax", []⟩)

/-- Run `panel-host` with the given arguments, up to the socket it listens at. -/
def host (words : List String) : Errands (Except Ending HostPlan) :=
  match (readHost words).started hostUsage with
  | .error ending => .done (.error ending)
  | .ok i => prepareHost i

end PublishDesk.CommandLine
