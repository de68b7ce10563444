import PublishDesk.Proofs.Settings.Text
import PublishDesk.Proofs.Text.Utf8
import PublishDesk.Proofs.Toml.Distinct
import PublishDesk.Proofs.Toml.Record

/-!
# Settings that are given in part

A document may leave out sections, and keys of the sections that are there, in any combination
(`Overrides`). What is loaded from it are the defaults with exactly the given values in their places
(`Overrides.over`), or the first rule that these break, in the order of the rules
(`Settings.load_overrides`). The order of the sections and keys makes no difference, and neither do
other keys and tables, whatever they hold, as long as a reader can deliver it.
-/

namespace PublishDesk
open Toml

/-! ## What a document gives -/

structure WorkerOverrides where
  command : Option (List String) := none
  siteConfig : Option String := none
  maxDepth : Option Nat := none

structure RepositoryOverrides where
  targetBranch : Option String := none
  remote : Option String := none
  review : Option ReviewService := none

structure ViewOverrides where
  pollInterval : Option Nat := none
  indicatorClear : Option Nat := none
  minMessageLength : Option Nat := none

/-- The sections that are there, and the keys in them. -/
structure Overrides where
  worker : Option WorkerOverrides := none
  repository : Option RepositoryOverrides := none
  view : Option ViewOverrides := none

/-! ## Given values in their places -/

def WorkerOverrides.over (o : WorkerOverrides) (s : WorkerSettings) : WorkerSettings where
  command := o.command.getD s.command
  siteConfig := o.siteConfig.getD s.siteConfig
  maxDepth := o.maxDepth.getD s.maxDepth

def RepositoryOverrides.over (o : RepositoryOverrides) (s : RepositorySettings) :
    RepositorySettings where
  targetBranch := o.targetBranch.getD s.targetBranch
  remote := o.remote.getD s.remote
  review := o.review.getD s.review

def ViewOverrides.over (o : ViewOverrides) (s : ViewSettings) : ViewSettings where
  pollInterval := o.pollInterval.getD s.pollInterval
  indicatorClear := o.indicatorClear.getD s.indicatorClear
  minMessageLength := o.minMessageLength.getD s.minMessageLength

def Overrides.over (o : Overrides) (s : Settings) : Settings where
  worker := (o.worker.getD {}).over s.worker
  repository := (o.repository.getD {}).over s.repository
  view := (o.view.getD {}).over s.view

/-! ## How a document gives them -/

def IsText (t : String) (v : Value) : Prop := v = .text t.toList

def IsTexts (ts : List String) (v : Value) : Prop := v = .array (ts.map fun t => .text t.toList)

/-- The value is a natural number of 64 bits. -/
def IsWord (n : Nat) (v : Value) : Prop := n < 2 ^ 64 ∧ v = .integer (some n)

def IsService (r : ReviewService) (v : Value) : Prop := v = .text r.name.toList

structure WorkerOverrides.HeldBy (o : WorkerOverrides) (t : List (Key × Value)) : Prop where
  command : Says t "command" IsTexts o.command
  siteConfig : Says t "site_config" IsText o.siteConfig
  maxDepth : Says t "discovery_max_depth" IsWord o.maxDepth
  others : OthersRepresentable ["command", "site_config", "discovery_max_depth"] t

structure RepositoryOverrides.HeldBy (o : RepositoryOverrides) (t : List (Key × Value)) :
    Prop where
  targetBranch : Says t "target_branch" IsText o.targetBranch
  remote : Says t "remote" IsText o.remote
  review : Says t "review" IsService o.review
  others : OthersRepresentable ["target_branch", "remote", "review"] t

structure ViewOverrides.HeldBy (o : ViewOverrides) (t : List (Key × Value)) : Prop where
  pollInterval : Says t "poll_interval_ms" IsWord o.pollInterval
  indicatorClear : Says t "indicator_clear_ms" IsWord o.indicatorClear
  minMessageLength : Says t "min_commit_message_len" IsWord o.minMessageLength
  others : OthersRepresentable ["poll_interval_ms", "indicator_clear_ms",
    "min_commit_message_len"] t

/-- A value is a table, of which something is known. -/
def IsTable {α : Type} (HeldBy : α → List (Key × Value) → Prop) (o : α) (v : Value) : Prop :=
  ∃ t, v = .table t ∧ HeldBy o t

structure Overrides.HeldBy (o : Overrides) (t : List (Key × Value)) : Prop where
  worker : Says t "worker" (IsTable WorkerOverrides.HeldBy) o.worker
  repository : Says t "vcs" (IsTable RepositoryOverrides.HeldBy) o.repository
  view : Says t "ui" (IsTable ViewOverrides.HeldBy) o.view
  others : OthersRepresentable ["worker", "vcs", "ui"] t

namespace Settings

/-! ## Reading the sections -/

variable {t : List (Key × Value)} {v : Value}

theorem readTexts_of_isTexts (ts : List String) (v : Value) (h : IsTexts ts v) :
    v.readTexts = .ok ts := h ▸ readTexts_map ts

theorem readText_of_isText (t : String) (v : Value) (h : IsText t v) : v.readText = .ok t :=
  h ▸ readText_toList t

theorem readWord_of_isWord {expected : String} (n : Nat) (v : Value) (h : IsWord n v) :
    v.readWord expected = .ok n := h.2 ▸ readWord_ofNat expected h.1

theorem readChoice_of_isService (r : ReviewService) (v : Value) (h : IsService r v) :
    v.readChoice [("none", ReviewService.none), ("gh", .gh)] = .ok r := h ▸ readChoice_name r

open RecordField

theorem readEntries_worker {o : WorkerOverrides} (h : o.HeldBy t)
    (hkeys : (t.map Prod.fst).Nodup) (s : WorkerSettings) :
    readEntries workerFields s t = .ok (o.over s) := by
  obtain ⟨s', hs', hcommand, hsite, hdepth⟩ :=
    exists_readEntries_three (A := WorkerSettings.command) (B := WorkerSettings.siteConfig)
      (C := WorkerSettings.maxDepth) (show workerFields = [_, _, _] from rfl) (by decide)
      ⟨sets_map readTexts_of_isTexts fun _ _ => rfl, keeps_map fun _ _ => rfl,
        keeps_map fun _ _ => rfl⟩
      ⟨keeps_map fun _ _ => rfl, sets_map readText_of_isText fun _ _ => rfl,
        keeps_map fun _ _ => rfl⟩
      ⟨keeps_map fun _ _ => rfl, keeps_map fun _ _ => rfl,
        sets_map readWord_of_isWord fun _ _ => rfl⟩ hkeys h.command h.siteConfig h.maxDepth
      h.others s
  obtain ⟨command, siteConfig, maxDepth⟩ := s'
  obtain rfl : command = _ := hcommand
  obtain rfl : siteConfig = _ := hsite
  obtain rfl : maxDepth = _ := hdepth
  exact hs'

theorem readEntries_repository {o : RepositoryOverrides} (h : o.HeldBy t)
    (hkeys : (t.map Prod.fst).Nodup) (s : RepositorySettings) :
    readEntries repositoryFields s t = .ok (o.over s) := by
  obtain ⟨s', hs', hbranch, hremote, hreview⟩ :=
    exists_readEntries_three (A := RepositorySettings.targetBranch)
      (B := RepositorySettings.remote) (C := RepositorySettings.review)
      (show repositoryFields = [_, _, _] from rfl) (by decide)
      ⟨sets_map readText_of_isText fun _ _ => rfl, keeps_map fun _ _ => rfl,
        keeps_map fun _ _ => rfl⟩
      ⟨keeps_map fun _ _ => rfl, sets_map readText_of_isText fun _ _ => rfl,
        keeps_map fun _ _ => rfl⟩
      ⟨keeps_map fun _ _ => rfl, keeps_map fun _ _ => rfl,
        sets_map readChoice_of_isService fun _ _ => rfl⟩ hkeys h.targetBranch h.remote h.review
      h.others s
  obtain ⟨targetBranch, remote, review⟩ := s'
  obtain rfl : targetBranch = _ := hbranch
  obtain rfl : remote = _ := hremote
  obtain rfl : review = _ := hreview
  exact hs'

theorem readEntries_view {o : ViewOverrides} (h : o.HeldBy t) (hkeys : (t.map Prod.fst).Nodup)
    (s : ViewSettings) : readEntries viewFields s t = .ok (o.over s) := by
  obtain ⟨s', hs', hpoll, hclear, hlength⟩ :=
    exists_readEntries_three (A := ViewSettings.pollInterval) (B := ViewSettings.indicatorClear)
      (C := ViewSettings.minMessageLength) (show viewFields = [_, _, _] from rfl) (by decide)
      ⟨sets_map readWord_of_isWord fun _ _ => rfl, keeps_map fun _ _ => rfl,
        keeps_map fun _ _ => rfl⟩
      ⟨keeps_map fun _ _ => rfl, sets_map readWord_of_isWord fun _ _ => rfl,
        keeps_map fun _ _ => rfl⟩
      ⟨keeps_map fun _ _ => rfl, keeps_map fun _ _ => rfl,
        sets_map readWord_of_isWord fun _ _ => rfl⟩ hkeys h.pollInterval h.indicatorClear
      h.minMessageLength h.others s
  obtain ⟨pollInterval, indicatorClear, minMessageLength⟩ := s'
  obtain rfl : pollInterval = _ := hpoll
  obtain rfl : indicatorClear = _ := hclear
  obtain rfl : minMessageLength = _ := hlength
  exact hs'

/-- A section that is there is read as the defaults with what it gives. -/
theorem readRecord_of_isTable {α σ : Type} {HeldBy : α → List (Key × Value) → Prop} {o : α}
    {fields : List (RecordField σ)} {s s' : σ} (title : String) (hv : v.Distinct)
    (h : IsTable HeldBy o v)
    (hread : ∀ {t}, HeldBy o t → (t.map Prod.fst).Nodup → readEntries fields s t = .ok s') :
    v.readRecord title fields s = .ok s' := by
  obtain ⟨t, rfl, ht⟩ := h
  cases hv with
  | table hkeys => exact hread ht hkeys

/-- The defaults with exactly the given values in their places. -/
theorem ofToml_eq {o : Overrides} (hv : (Value.table t).Distinct) (h : o.HeldBy t) :
    ofToml (.table t) = .ok (o.over {}) := by
  obtain ⟨hkeys, hvalues⟩ : (t.map Prod.fst).Nodup ∧ ∀ e ∈ t, e.2.Distinct := by
    cases hv with
    | table hkeys hvalues => exact ⟨hkeys, hvalues⟩
  have hworker : Says t "worker" (fun w v =>
      v.readRecord "struct WorkerConfig" workerFields {} = .ok w) (o.worker.map (·.over {})) :=
    h.worker.map fun _ _ hmem h =>
      readRecord_of_isTable _ (hvalues _ hmem) h fun h hkeys => readEntries_worker h hkeys _
  have hrepository : Says t "vcs" (fun r v =>
      v.readRecord "struct VcsConfig" repositoryFields {} = .ok r)
      (o.repository.map (·.over {})) :=
    h.repository.map fun _ _ hmem h =>
      readRecord_of_isTable _ (hvalues _ hmem) h fun h hkeys => readEntries_repository h hkeys _
  have hview : Says t "ui" (fun u v => v.readRecord "struct UiConfig" viewFields {} = .ok u)
      (o.view.map (·.over {})) :=
    h.view.map fun _ _ hmem h =>
      readRecord_of_isTable _ (hvalues _ hmem) h fun h hkeys => readEntries_view h hkeys _
  obtain ⟨s, hs, hw, hr, hu⟩ :=
    exists_readEntries_three (A := Settings.worker) (B := Settings.repository)
      (C := Settings.view) (show fields = [_, _, _] from rfl) (by decide)
      ⟨sets_map (fun _ _ h => h) fun _ _ => rfl, keeps_map fun _ _ => rfl,
        keeps_map fun _ _ => rfl⟩
      ⟨keeps_map fun _ _ => rfl, sets_map (fun _ _ h => h) fun _ _ => rfl,
        keeps_map fun _ _ => rfl⟩
      ⟨keeps_map fun _ _ => rfl, keeps_map fun _ _ => rfl,
        sets_map (fun _ _ h => h) fun _ _ => rfl⟩ hkeys hworker hrepository hview h.others {}
  obtain ⟨worker, repository, view⟩ := s
  obtain rfl : worker = (o.worker.getD {}).over {} := hw.trans (Option.getD_map _ {} o.worker)
  obtain rfl : repository = (o.repository.getD {}).over {} :=
    hr.trans (Option.getD_map _ {} o.repository)
  obtain rfl : view = (o.view.getD {}).over {} := hu.trans (Option.getD_map _ {} o.view)
  exact hs

/-! ## Loading -/

/-- Settings are loaded as a whole if they keep all rules; else it is told which of the rules they
break is checked first. -/
inductive Judged (s : Settings) : Except SettingsError Settings → Prop where
  | kept (h : ∀ r, SettingsRule.brokenBy s r = false) : Judged s (.ok s)
  | broken {before after : List SettingsRule} {r : SettingsRule}
      (hall : SettingsRule.all = before ++ r :: after)
      (hbefore : ∀ q ∈ before, SettingsRule.brokenBy s q = false)
      (hr : SettingsRule.brokenBy s r = true) : Judged s (.error (.invalid r))

theorem Judged.eq_ok {s : Settings} {result : Except SettingsError Settings} (h : Judged s result)
    (hkept : ∀ r, SettingsRule.brokenBy s r = false) : result = .ok s := by
  cases h with
  | kept => rfl
  | broken _ _ hr => exact absurd ((hkept _).symm.trans hr) Bool.false_ne_true

theorem mem_all (r : SettingsRule) : r ∈ SettingsRule.all := by
  cases r <;> decide

theorem judged_check (s : Settings) :
    Judged s ((s.check.mapError .invalid).bind fun _ => .ok s) := by
  rw [check]
  cases hfind : SettingsRule.all.find? (SettingsRule.brokenBy s) with
  | none =>
    refine .kept fun r => ?_
    simpa using List.find?_eq_none.1 hfind r (mem_all r)
  | some r =>
    obtain ⟨hr, before, after, hall, hbefore⟩ := List.find?_eq_some_iff_append.1 hfind
    exact .broken hall (fun q hq => by simpa using hbefore q hq) hr

theorem judged_ofText {cs : List Char} {o : Overrides}
    (hread : Document.read? cs = some (.table t)) (h : o.HeldBy t) :
    Judged (o.over {}) (ofText cs) := by
  have htext : ofText cs = ((o.over {}).check.mapError .invalid).bind fun _ => .ok (o.over {}) := by
    rw [ofText, hread]
    simp only [ofToml_eq (Document.distinct_of_read? hread) h]
    rfl
  rw [htext]
  exact judged_check (o.over {})

/-- Whichever sections and keys a document gives, and in whichever order and together with whatever
else, the settings loaded from it are the defaults with exactly the given values in their places. -/
theorem load_overrides {σ : Type} {answer : (a : Access) → σ → a.Answer × σ} {files : σ}
    {path : Path} {cs : List Char} {o : Overrides}
    (hthere : (answer (.isThere path) files).1 = true)
    (hcontent : (answer (.content path) (answer (.isThere path) files).2).1 =
      .ok (Text.Utf8.encode cs))
    (hread : Document.read? cs = some (.table t)) (h : o.HeldBy t) :
    Judged (o.over {}) ((load path).run answer files).1 := by
  have hload : ((load path).run answer files).1 = ofText cs := by
    simp only [load, Program.run, hthere, if_true, hcontent, ofFile, Text.Utf8.decode?_encode]
  rw [hload]
  exact judged_ofText hread h

/-- A text with two of the sections, one key in each of them, and things that no one reads. -/
def partialText : List Char :=
  sectionText "ui" [textLine "shade" "dark", numberLine "poll_interval_ms" 250] ++
    '\n' :: (sectionText "extra" [numberLine "depth" 9] ++
      '\n' :: (sectionText "worker" [textLine "site_config" "site.toml"] ++ ['\n']))

def partialSections : List (Key × Value) := [
  ("extra".toList, .table [("depth".toList, .integer (some 9))]),
  ("ui".toList, .table [("poll_interval_ms".toList, .integer (some 250)),
    ("shade".toList, .text "dark".toList)]),
  ("worker".toList, .table [("site_config".toList, .text "site.toml".toList)])]

theorem read?_partialText : Document.read? partialText = some (.table partialSections) := by
  have hview : ∀ l ∈ [textLine "shade" "dark", numberLine "poll_interval_ms" 250], l.Reads :=
    List.forall_mem_cons.2 ⟨reads_textLine (by decide) _,
      List.forall_mem_singleton.2 (reads_numberLine (by decide) _)⟩
  have hextra : ∀ l ∈ [numberLine "depth" 9], l.Reads :=
    List.forall_mem_singleton.2 (reads_numberLine (by decide) _)
  have hworker : ∀ l ∈ [textLine "site_config" "site.toml"], l.Reads :=
    List.forall_mem_singleton.2 (reads_textLine (by decide) _)
  have hread : State.start.read partialText = some ⟨[
      ("ui".toList, .table .header (lineEntries
        [textLine "shade" "dark", numberLine "poll_interval_ms" 250])),
      ("extra".toList, .table .header (lineEntries [numberLine "depth" 9])),
      ("worker".toList, .table .header (lineEntries [textLine "site_config" "site.toml"]))],
      ["worker".toList], .lineStart⟩ := by
    rw [partialText, State.start, read_section (by decide) rfl hview (by decide), read_newline,
      read_section (by decide) rfl hextra (by decide), read_newline,
      read_section (by decide) rfl hworker (by decide), read_newline, State.read_nil]
    rfl
  have hsections (ui extra worker : Value) :
      sorted [("ui".toList, ui), ("extra".toList, extra), ("worker".toList, worker)] =
        [("extra".toList, extra), ("ui".toList, ui), ("worker".toList, worker)] := by
    cbv
  have hkeys (shade pollInterval : Value) :
      sorted [("shade".toList, shade), ("poll_interval_ms".toList, pollInterval)] =
        [("poll_interval_ms".toList, pollInterval), ("shade".toList, shade)] := by
    cbv
  have hsingle (k : Key) (v : Value) : sorted [(k, v)] = [(k, v)] := List.mergeSort_singleton _
  obtain ⟨cs, hcs⟩ : ∃ cs, partialText = '[' :: cs := ⟨_, rfl⟩
  rw [hcs] at hread ⊢
  rw [read?_of_ne (by decide), hread]
  change some (Value.table (sorted [("ui".toList, .table (sorted [
    ("shade".toList, .text "dark".toList), ("poll_interval_ms".toList, .integer (some 250))])),
    ("extra".toList, .table (sorted [("depth".toList, .integer (some 9))])),
    ("worker".toList, .table (sorted [("site_config".toList, .text "site.toml".toList)]))])) = _
  rw [hsections, hkeys, hsingle, hsingle, partialSections]

/-- A key and a whole table are passed over. -/
theorem load_overrides_partial :
    let files : Tree := .directory [(Text.Utf8.encode "panel.toml".toList,
      .file (Text.Utf8.encode partialText))]
    let o : Overrides :=
      { worker := some { siteConfig := some "site.toml" }
        view := some { pollInterval := some 250 } }
    Judged (o.over {}) ((load "panel.toml".toList).run (Tree.access []) files).1 ∧
      ((load "panel.toml".toList).run (Tree.access []) files).1 =
        .ok { worker := { siteConfig := "site.toml" }, view := { pollInterval := 250 } } := by
  have hthere (content : List UInt8) : (Tree.access [] (.isThere "panel.toml".toList)
      (.directory [(Text.Utf8.encode "panel.toml".toList, .file content)])).1 = true := by
    cbv
  have hcontent (content : List UInt8) : (Tree.access [] (.content "panel.toml".toList)
      (.directory [(Text.Utf8.encode "panel.toml".toList, .file content)])).1 = .ok content := by
    cbv
  have hworker : WorkerOverrides.HeldBy { siteConfig := some "site.toml" }
      [("site_config".toList, .text "site.toml".toList)] :=
    { command := rfl, siteConfig := ⟨_, rfl, rfl⟩, maxDepth := rfl,
      others := List.forall_mem_singleton.2 fun _ => .text _ }
  have hview : ViewOverrides.HeldBy { pollInterval := some 250 }
      [("poll_interval_ms".toList, .integer (some 250)), ("shade".toList, .text "dark".toList)] :=
    { pollInterval := ⟨_, rfl, by decide, rfl⟩, indicatorClear := rfl, minMessageLength := rfl,
      others := List.forall_mem_cons.2 ⟨fun _ => .integer (by decide) (by decide),
        List.forall_mem_singleton.2 fun _ => .text _⟩ }
  have hextra : (Value.table [("depth".toList, .integer (some 9))]).Representable :=
    .table (List.forall_mem_singleton.2 (.integer (by decide) (by decide)))
  intro files o
  have hjudged : Judged (o.over {}) ((load "panel.toml".toList).run (Tree.access []) files).1 := by
    refine load_overrides (hthere _) (hcontent _) read?_partialText
      { worker := ⟨_, rfl, _, rfl, hworker⟩, repository := rfl, view := ⟨_, rfl, _, rfl, hview⟩,
        others := ?_ }
    exact List.forall_mem_cons.2 ⟨fun _ => hextra, List.forall_mem_cons.2
      ⟨fun h => (h (by decide)).elim, List.forall_mem_singleton.2 fun h => (h (by decide)).elim⟩⟩
  exact ⟨hjudged, hjudged.eq_ok fun r => by cases r <;> decide⟩

end Settings
end PublishDesk
