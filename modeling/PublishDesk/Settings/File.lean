import PublishDesk.Path
import PublishDesk.Settings.Read
import PublishDesk.Settings.Write

/-!
# Writing the settings file

The new text is written to a temporary file beside the settings file, which then takes its place.
Whatever fails on the way, the settings file holds either its old text or the whole new one, unless
a link stands at the path of the temporary file: then the text is written where the link leads, and
it is the link that takes the place of the settings file.
-/

namespace PublishDesk

/-- A step of storing settings. -/
inductive StoreStep where
  | createDirectory
  | writeTemporary
  | replaceFile
deriving DecidableEq, Repr

def StoreStep.message : StoreStep → String
  | .createDirectory => "create directory"
  | .writeTemporary => "write temp config"
  | .replaceFile => "replace config"

/-- Why settings were not stored. -/
inductive StoreError where
  | invalid (rule : SettingsRule)
  /-- The path has no parent, so it is no path of a file. -/
  | noParent (path : Path)
  | failed (step : StoreStep) (path : Path) (cause : FileError)
deriving DecidableEq, Repr

def StoreError.diagnosis : StoreError → Diagnosis
  | .invalid rule => ⟨rule.message, []⟩
  | .noParent path => ⟨"config path missing parent " ++ String.ofList path, []⟩
  | .failed step path cause => ⟨step.message ++ " " ++ String.ofList path, [cause.message]⟩

namespace Settings

/-- The temporary file beside a settings file. -/
def temporaryPath (path : Path) : Path := path.withExtension "toml.tmp".toList

/-- Make a call, and go on unless it fails. -/
def attempt (step : StoreStep) (path : Path) (c : WriteCall)
    (next : Writing (Except StoreError Unit)) : Writing (Except StoreError Unit) :=
  .ask c fun
    | .ok () => next
    | .error e => .done (.error (.failed step path e))

/-- Store settings at a path. -/
def store (s : Settings) (path : Path) : Writing (Except StoreError Unit) :=
  match s.check, path.parent? with
  | .error rule, _ => .done (.error (.invalid rule))
  | .ok (), none => .done (.error (.noParent path))
  | .ok (), some directory =>
    let temporary := temporaryPath path
    attempt .createDirectory directory (.createDirectory directory) <|
    attempt .writeTemporary temporary (.write temporary s.text) <|
    attempt .replaceFile path (.rename temporary path) <| .done (.ok ())

/-- The path of the settings file of a workspace. -/
def pathIn (workspace : Path) : Path := workspace.join settingsFileName.toList

end Settings
end PublishDesk
