import Mathlib
import PublishDesk.Proofs.Toml.Layout
import PublishDesk.Proofs.Toml.Record
import PublishDesk.Settings.Read

/-!
# The text of settings is read back

The text that is written for settings is a document of three sections, and reading it gives the
settings again (`ofText_text`): whatever characters their texts have, and however large their
numbers are, as long as these are words of 64 bits.
-/

namespace PublishDesk
open Toml

/-- The numbers of settings are words of 64 bits. -/
structure Settings.Fits (s : Settings) : Prop where
  maxDepth : s.worker.maxDepth < 2 ^ 64
  pollInterval : s.view.pollInterval < 2 ^ 64
  indicatorClear : s.view.indicatorClear < 2 ^ 64
  minMessageLength : s.view.minMessageLength < 2 ^ 64

namespace Settings

/-! ## Lines -/

def textLine (key : String) (t : String) : Line := ⟨key, quote t.toList, .text t.toList⟩

def numberLine (key : String) (n : Nat) : Line := ⟨key, numeralText n, .integer (some n)⟩

def listLine (key : String) (ts : List String) : Line :=
  ⟨key, textList ts, .array (ts.map fun t => .text t.toList)⟩

def workerLines (w : WorkerSettings) : List Line :=
  [listLine "command" w.command, textLine "site_config" w.siteConfig,
    numberLine "discovery_max_depth" w.maxDepth]

def repositoryLines (r : RepositorySettings) : List Line :=
  [textLine "target_branch" r.targetBranch, textLine "remote" r.remote,
    textLine "review" r.review.name]

def viewLines (v : ViewSettings) : List Line :=
  [numberLine "poll_interval_ms" v.pollInterval, numberLine "indicator_clear_ms" v.indicatorClear,
    numberLine "min_commit_message_len" v.minMessageLength]

variable {key : String}

theorem reads_textLine (h : key ≠ "" ∧ key.toList.all State.isKeyChar) (t : String) :
    (textLine key t).Reads :=
  ⟨h, writes_quote _⟩

theorem reads_numberLine (h : key ≠ "" ∧ key.toList.all State.isKeyChar) (n : Nat) :
    (numberLine key n).Reads :=
  ⟨h, writes_numeralText _⟩

theorem reads_listLine (h : key ≠ "" ∧ key.toList.all State.isKeyChar) (ts : List String) :
    (listLine key ts).Reads :=
  ⟨h, writes_textList _⟩

theorem reads_workerLines (w : WorkerSettings) : ∀ l ∈ workerLines w, l.Reads := by
  simp only [workerLines, List.forall_mem_cons]
  exact ⟨reads_listLine (by decide) _, reads_textLine (by decide) _,
    reads_numberLine (by decide) _, nofun⟩

theorem reads_repositoryLines (r : RepositorySettings) : ∀ l ∈ repositoryLines r, l.Reads := by
  simp only [repositoryLines, List.forall_mem_cons]
  exact ⟨reads_textLine (by decide) _, reads_textLine (by decide) _,
    reads_textLine (by decide) _, nofun⟩

theorem reads_viewLines (v : ViewSettings) : ∀ l ∈ viewLines v, l.Reads := by
  simp only [viewLines, List.forall_mem_cons]
  exact ⟨reads_numberLine (by decide) _, reads_numberLine (by decide) _,
    reads_numberLine (by decide) _, nofun⟩

theorem nodup_workerLines (w : WorkerSettings) :
    ((workerLines w).map (·.key.toList)).Nodup := by
  change ["command".toList, "site_config".toList, "discovery_max_depth".toList].Nodup
  decide

theorem nodup_repositoryLines (r : RepositorySettings) :
    ((repositoryLines r).map (·.key.toList)).Nodup := by
  change ["target_branch".toList, "remote".toList, "review".toList].Nodup
  decide

theorem nodup_viewLines (v : ViewSettings) : ((viewLines v).map (·.key.toList)).Nodup := by
  change ["poll_interval_ms".toList, "indicator_clear_ms".toList,
    "min_commit_message_len".toList].Nodup
  decide

/-! ## The document -/

theorem text_eq (s : Settings) :
    s.text = sectionText "worker" (workerLines s.worker) ++
      '\n' :: (sectionText "vcs" (repositoryLines s.repository) ++
        '\n' :: (sectionText "ui" (viewLines s.view) ++ ['\n'])) := by
  have hworker : "[worker]\n".toList = '[' :: ("worker".toList ++ "]\n".toList) := rfl
  have hvcs : "\n[vcs]\n".toList = '\n' :: '[' :: ("vcs".toList ++ "]\n".toList) := rfl
  have hui : "\n[ui]\n".toList = '\n' :: '[' :: ("ui".toList ++ "]\n".toList) := rfl
  delta text
  simp only [hworker, hvcs, hui, sectionText, workerLines, repositoryLines, viewLines,
    textLine, numberLine, listLine, List.flatMap_cons, List.flatMap_nil, List.append_assoc,
    List.cons_append, List.nil_append]

/-- The tables that settings are written as. -/
def tables (s : Settings) : Entries := [
  ("worker".toList, .table .header (lineEntries (workerLines s.worker))),
  ("vcs".toList, .table .header (lineEntries (repositoryLines s.repository))),
  ("ui".toList, .table .header (lineEntries (viewLines s.view)))]

theorem read?_text (s : Settings) :
    Document.read? s.text = some (tables s).toValue := by
  have hread : State.start.read s.text = some ⟨tables s, ["ui".toList], .lineStart⟩ := by
    rw [text_eq, State.start,
      read_section (by decide) rfl (reads_workerLines _) (nodup_workerLines _), read_newline,
      read_section (by decide) rfl (reads_repositoryLines _) (nodup_repositoryLines _),
      read_newline, read_section (by decide) rfl (reads_viewLines _) (nodup_viewLines _),
      read_newline, State.read_nil]
    rfl
  obtain ⟨cs, hcs⟩ : ∃ cs, s.text = '[' :: cs := ⟨_, text_eq s⟩
  rw [hcs] at hread ⊢
  rw [read?_of_ne (by decide), hread]
  rfl

/-! ## Reading values -/

theorem readTexts_map (ts : List String) :
    (Value.array (ts.map fun t => .text t.toList)).readTexts = .ok ts := by
  rw [Value.readTexts, List.mapM_map]
  induction ts with
  | nil => rfl
  | cons t ts ih =>
    rw [List.mapM_cons, ih]
    simp [Value.readText]
    rfl

theorem readWord_ofNat (expected : String) {n : Nat} (h : n < 2 ^ 64) :
    (Value.integer (some (n : Int))).readWord expected = .ok n := by
  have hfound : (Value.integer (some (n : Int))).found = .ok (.integer n) := by
    rw [Value.found, if_pos (by omega)]
  rw [Value.readWord, hfound]
  change (if 0 ≤ (n : Int) then Except.ok (n : Int).toNat
    else .error (.wrongValue (.integer n) expected)) = _
  rw [if_pos (Int.natCast_nonneg n), Int.toNat_natCast]

theorem readChoice_name (r : ReviewService) :
    (Value.text r.name.toList).readChoice [("none", ReviewService.none), ("gh", .gh)] = .ok r := by
  cases r <;> rfl

theorem readText_toList (t : String) : (Value.text t.toList).readText = .ok t := by
  rw [Value.readText, String.ofList_toList]

/-- An entry is given to the field of its name. -/
theorem readEntries_cons {σ : Type} {fields : List (RecordField σ)} {f : RecordField σ} {k : Key}
    {v : Value} {s : σ} (s' : σ) (h : fields.find? (fun f => f.name.toList == k) = some f)
    (hread : f.read v s = .ok s') (t : List (Key × Value)) :
    readEntries fields s ((k, v) :: t) = readEntries fields s' t := by
  rw [readEntries_of_find? h, hread]
  rfl

theorem readRecord_worker (w : WorkerSettings) (h : w.maxDepth < 2 ^ 64) :
    (Entries.toValue (lineEntries (workerLines w))).readRecord "struct WorkerConfig"
      workerFields {} = .ok w := by
  have hsorted (command siteConfig maxDepth : Value) :
      sorted [("command".toList, command), ("site_config".toList, siteConfig),
        ("discovery_max_depth".toList, maxDepth)] =
      [("command".toList, command), ("discovery_max_depth".toList, maxDepth),
        ("site_config".toList, siteConfig)] := by
    cbv
  have hvalue : Entries.toValue (lineEntries (workerLines w)) = .table (sorted [
      ("command".toList, .array (w.command.map fun t => .text t.toList)),
      ("site_config".toList, .text w.siteConfig.toList),
      ("discovery_max_depth".toList, .integer (some w.maxDepth))]) := rfl
  rw [hvalue, hsorted, Value.readRecord,
    readEntries_cons { command := w.command } rfl (by simp only [readTexts_map]; rfl),
    readEntries_cons { command := w.command, maxDepth := w.maxDepth } rfl
      (by simp only [readWord_ofNat _ h]; rfl),
    readEntries_cons w rfl (by simp only [readText_toList]; rfl)]
  rfl

theorem readRecord_repository (r : RepositorySettings) :
    (Entries.toValue (lineEntries (repositoryLines r))).readRecord "struct VcsConfig"
      repositoryFields {} = .ok r := by
  have hsorted (targetBranch remote review : Value) :
      sorted [("target_branch".toList, targetBranch), ("remote".toList, remote),
        ("review".toList, review)] =
      [("remote".toList, remote), ("review".toList, review),
        ("target_branch".toList, targetBranch)] := by
    cbv
  have hvalue : Entries.toValue (lineEntries (repositoryLines r)) = .table (sorted [
      ("target_branch".toList, .text r.targetBranch.toList),
      ("remote".toList, .text r.remote.toList), ("review".toList, .text r.review.name.toList)]) :=
    rfl
  rw [hvalue, hsorted, Value.readRecord,
    readEntries_cons { remote := r.remote } rfl (by simp only [readText_toList]; rfl),
    readEntries_cons { remote := r.remote, review := r.review } rfl
      (by simp only [readChoice_name]; rfl),
    readEntries_cons r rfl (by simp only [readText_toList]; rfl)]
  rfl

theorem readRecord_view (v : ViewSettings) (hpoll : v.pollInterval < 2 ^ 64)
    (hclear : v.indicatorClear < 2 ^ 64) (hlength : v.minMessageLength < 2 ^ 64) :
    (Entries.toValue (lineEntries (viewLines v))).readRecord "struct UiConfig" viewFields {} =
      .ok v := by
  have hsorted (pollInterval indicatorClear minMessageLength : Value) :
      sorted [("poll_interval_ms".toList, pollInterval),
        ("indicator_clear_ms".toList, indicatorClear),
        ("min_commit_message_len".toList, minMessageLength)] =
      [("indicator_clear_ms".toList, indicatorClear),
        ("min_commit_message_len".toList, minMessageLength),
        ("poll_interval_ms".toList, pollInterval)] := by
    cbv
  have hvalue : Entries.toValue (lineEntries (viewLines v)) = .table (sorted [
      ("poll_interval_ms".toList, .integer (some v.pollInterval)),
      ("indicator_clear_ms".toList, .integer (some v.indicatorClear)),
      ("min_commit_message_len".toList, .integer (some v.minMessageLength))]) := rfl
  rw [hvalue, hsorted, Value.readRecord,
    readEntries_cons { indicatorClear := v.indicatorClear } rfl
      (by simp only [readWord_ofNat _ hclear]; rfl),
    readEntries_cons { v with pollInterval := ViewSettings.pollInterval {} } rfl
      (by simp only [readWord_ofNat _ hlength]; rfl),
    readEntries_cons v rfl (by simp only [readWord_ofNat _ hpoll]; rfl)]
  rfl

/-- The tables that were written hold the settings that were written. -/
theorem ofToml_toValue (s : Settings) (h : s.Fits) :
    ofToml (tables s).toValue = .ok s := by
  have hsorted (worker vcs ui : Value) :
      sorted [("worker".toList, worker), ("vcs".toList, vcs), ("ui".toList, ui)] =
        [("ui".toList, ui), ("vcs".toList, vcs), ("worker".toList, worker)] := by
    cbv
  have hvalue : (tables s).toValue = .table (sorted [
      ("worker".toList, Entries.toValue (lineEntries (workerLines s.worker))),
      ("vcs".toList, Entries.toValue (lineEntries (repositoryLines s.repository))),
      ("ui".toList, Entries.toValue (lineEntries (viewLines s.view)))]) := rfl
  have hview := readRecord_view s.view h.pollInterval h.indicatorClear h.minMessageLength
  have hworker := readRecord_worker s.worker h.maxDepth
  rw [hvalue, hsorted, ofToml, Value.readRecord,
    readEntries_cons { view := s.view } rfl (by simp only [hview]; rfl),
    readEntries_cons { view := s.view, repository := s.repository } rfl
      (by simp only [readRecord_repository]; rfl),
    readEntries_cons s rfl (by simp only [hworker]; rfl)]
  rfl

/-- The text that is written for settings is read as these settings. -/
theorem ofText_text {s : Settings} (h : s.Fits) (hcheck : s.check = .ok ()) :
    ofText s.text = .ok s := by
  rw [ofText, read?_text]
  simp only [ofToml_toValue s h]
  change (s.check.mapError SettingsError.invalid).bind (fun _ => .ok s) = _
  rw [hcheck]
  rfl

end Settings
end PublishDesk
