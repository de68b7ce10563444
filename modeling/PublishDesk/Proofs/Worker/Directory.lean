import Mathlib
import PublishDesk.Proofs.FileSystem.Directory
import PublishDesk.Worker.Environment
import PublishDesk.Worker.Supervisor

/-!
# The directory of the worker

The worker for a site is started in the directory of the site's file. The name of the file joined to
the path of that directory has the components of the path of the file, and leads to the same file in
every tree; and the worker can be started there, with one exception: the path of the directory is
empty if the path of the file is nothing but its name, and in a directory without a path no worker
can be started (`Supervisor.startsBeside_forSite`).
-/

namespace PublishDesk
open Text

variable {siteConfig root d : Path} {name : List Char} {top : Tree} {isProgram : String → Bool}

namespace Environment

/-- The directories of a tree that stands at `root`, and programs. -/
def ofTree (root : Path) (top : Tree) (isProgram : String → Bool) : Environment where
  isDirectory d := (top.reach root d).toOption.any fun v => (v.end top).isDirectory
  isProgram := isProgram

theorem isDirectory_ofTree_iff : (ofTree root top isProgram).isDirectory d ↔
    ∃ v, top.reach root d = .ok v ∧ (v.end top).isDirectory := by
  simp [ofTree, Option.any_eq_true, toOption_eq_some_iff]

/-- A command that can be started in every directory. -/
structure Offers (e : Environment) (command : List String) : Prop where
  program : ∃ program, command.head? = some program ∧ e.isProgram program
  words : command.any hasZeroCharacter = false

theorem Offers.obstacle?_eq {e : Environment} {command : List String} (h : e.Offers command)
    (hd : '\x00' ∉ d) :
    e.obstacle? d command = if e.isDirectory d then none else some .notFound := by
  obtain ⟨program, hhead, hprogram⟩ := h.program
  obtain ⟨words, rfl⟩ := List.head?_eq_some_iff.1 hhead
  have hzero : d.any (· == '\x00') = false :=
    List.any_eq_false.2 fun c hc heq => hd (beq_iff_eq.1 heq ▸ hc)
  simp only [obstacle?, h.words, hzero, hprogram]
  cases e.isDirectory d <;> simp

end Environment

theorem Tree.reach_nil : top.reach root [] = .error .notFound := rfl

/-- The directory of a file that is there is found, unless it has no path. -/
theorem LeadsToFile.isDirectory_iff {w : Way} {ks es fs : List (List Char)}
    (h : LeadsToFile root top siteConfig w) (H : Path.Placed siteConfig name d ks es fs) :
    (Environment.ofTree root top isProgram).isDirectory d ↔ d ≠ [] := by
  rw [Environment.isDirectory_ofTree_iff]
  constructor
  · rintro ⟨v, hv, -⟩ rfl
    rw [Tree.reach_nil] at hv
    cases hv
  · exact fun hd => (h.of_placed H).2 (mt H.holder.eq_nil_iff.2 hd)

/-- How a directory goes with the path of a file and the name of that file. -/
structure StartsBeside (siteConfig : Path) (name : List Char) (directory : Path) : Prop where
  /-- The file has the same components under its name in the directory. -/
  components_join : (Path.join directory name).components = siteConfig.components
  /-- The directory has a path, unless the name is all that the path of the file means. -/
  eq_nil_iff : directory = [] ↔ siteConfig.components = [.name name]
  /-- Wherever the file is, it is found under its name in the directory. -/
  reach_join : ∀ root top w, LeadsToFile root top siteConfig w →
    top.reach root (Path.join directory name) = .ok w
  /-- There, a worker can be started in the directory, unless this has no path. -/
  obstacle?_eq : ∀ root top w isProgram command, LeadsToFile root top siteConfig w →
    '\x00' ∉ siteConfig → (Environment.ofTree root top isProgram).Offers command →
    (Environment.ofTree root top isProgram).obstacle? directory command =
      if siteConfig.components = [.name name] then some .notFound else none

theorem Supervisor.startsBeside_forSite (h : siteConfig.fileName? = some name)
    (command : List String) :
    StartsBeside siteConfig name (forSite command siteConfig).directory := by
  obtain ⟨d, ks, es, fs, hparent, H⟩ := Path.exists_placed h
  have hdirectory : (forSite command siteConfig).directory = d := by
    rw [forSite, workerDirectory, hparent, Option.getD_some]
  have hnil := H.eq_nil_iff (Path.ofSegment?_fileName h)
  rw [hdirectory]
  refine ⟨H.components_join, hnil, fun root top w hfile => ?_, ?_⟩
  · rw [H.join_eq]
    exact (hfile.of_placed H).1
  · intro root top w isProgram command hfile hzero hcommand
    rw [hcommand.obstacle?_eq (H.not_mem_directory hzero (by decide)),
      if_congr (hfile.isDirectory_iff H) rfl rfl, if_congr (not_congr hnil) rfl rfl, ite_not]

/-- A tree with a site at its top, and a directory beside the file of the site. -/
def siteTree : Tree :=
  .directory [(Utf8.encode "config.toml".toList, .file []),
    (Utf8.encode "pages".toList, .directory [])]

/-- The worker of a site cannot be started if its file is given by the bare name, but it can be if
the file is given by a roundabout path. -/
theorem Supervisor.startsBeside_forSite_bare :
    let command := ["reSsg", "serve"]
    let e := Environment.ofTree "/desk".toList siteTree (· == "reSsg")
    let bare := (forSite command "config.toml".toList).directory
    let roundabout := (forSite command "pages/.././/config.toml".toList).directory
    (bare = [] ∧ e.obstacle? bare command = some .notFound) ∧
      (roundabout ≠ [] ∧ e.obstacle? roundabout command = none) := by
  intro command e bare roundabout
  have hplace : Path.IsPlace "/desk".toList := .inr ⟨by decide, by decide⟩
  have hcommand : e.Offers command := ⟨⟨"reSsg", rfl, by decide⟩, by decide⟩
  have hbare : LeadsToFile "/desk".toList siteTree "config.toml".toList
      [(Utf8.encode "config.toml".toList, .file [])] :=
    ⟨hplace, rfl, by cbv, by decide⟩
  have hroundabout : LeadsToFile "/desk".toList siteTree "pages/.././/config.toml".toList
      [(Utf8.encode "config.toml".toList, .file [])] :=
    ⟨hplace, rfl, by cbv, by decide⟩
  have hname : Path.fileName? "config.toml".toList = some "config.toml".toList := by decide
  have hname' : Path.fileName? "pages/.././/config.toml".toList = some "config.toml".toList := by
    decide
  have h := startsBeside_forSite hname command
  have h' := startsBeside_forSite hname' command
  refine ⟨⟨h.eq_nil_iff.2 (by decide), ?_⟩, mt h'.eq_nil_iff.1 (by decide), ?_⟩
  · exact h.obstacle?_eq _ _ _ _ _ hbare (by decide) hcommand
  · exact h'.obstacle?_eq _ _ _ _ _ hroundabout (by decide) hcommand

end PublishDesk
