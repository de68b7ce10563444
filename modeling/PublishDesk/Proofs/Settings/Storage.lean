import PublishDesk.Proofs.FileSystem.Bypass
import PublishDesk.Proofs.FileSystem.Entry
import PublishDesk.Proofs.FileSystem.LastName
import PublishDesk.Proofs.Settings.Text
import PublishDesk.Settings.File

/-!
# Settings that are stored are loaded

When settings have been stored at a path, their text has been written beside the settings file and
moved into its place. Links may lead to the directory of the path in any way; but if one stands at
the temporary path, the text goes where it leads, and the link itself is moved. Loading from the
path then gives the settings if and only if that place is another one than the entry of the path,
and is reached without it (`Tree.leadsPast`). Otherwise the path leads nowhere any more, and the
defaults are loaded; it never leads to other settings (`load_of_store`).
-/

namespace PublishDesk
open Text

variable {root path : Path} {top top' : Tree} {s : Settings} {l : List Char} {m n : FileName}
  {r rt : Route}

namespace Tree

/-- Whether a link stands at a path. -/
def isLinkAt (root : Path) (top : Tree) (p : Path) : Bool :=
  match (routeAt root p).toOption.bind (top.at? false) with
  | some (.link _) => true
  | _ => false

/-- Whether a link is followed on the way to the directory that holds a path. -/
def passesLink (root : Path) (top : Tree) (p : Path) : Bool :=
  match routeAt root p >>= fun r => top.arrive true r.parent with
  | .ok a => a.links != maxLinks
  | .error _ => false

/-- Whether a path leads past the entry of another one: with that entry taken away, it leads to some
other place. -/
def leadsPast (root : Path) (top : Tree) (p path : Path) : Bool :=
  (top.entry? root path).any fun q =>
    match routeAt root p >>= (remove q top).arrive true with
    | .ok a => a.names != q
    | .error _ => false

theorem leadsPast_iff {q : List FileName} {p : Path} (hq : top.entry? root path = some q)
    (hr : routeAt root p = .ok r) :
    top.leadsPast root p path ↔ ∃ a, (remove q top).arrive true r = .ok a ∧ a.names ≠ q := by
  rw [leadsPast, hq, Option.any_some, hr]
  change (match (remove q top).arrive true r with
    | .ok a => a.names != q
    | .error _ => false) = true ↔ _
  cases (remove q top).arrive true r with
  | error e => exact ⟨nofun, nofun⟩
  | ok a => simp

end Tree

namespace Settings

/-! ## The name of the temporary file -/

/-- The last name of the temporary path. -/
def temporaryName (l : List Char) : List Char := Path.stem l ++ ".toml.tmp".toList

theorem temporaryPath_pathOf {ls : List (List Char)} {l : List Char} (h : Segmented ls l)
    (hhere : l ≠ ['.']) (habove : l ≠ ['.', '.']) :
    temporaryPath (pathOf ls l) = pathOf ls (temporaryName l) :=
  withExtension_pathOf h hhere habove _

theorem segmented_temporaryName {ls : List (List Char)} {l : List Char} (h : Segmented ls l) :
    Segmented ls (temporaryName l) where
  before := h.before
  last := by
    intro hmem
    rcases List.mem_append.1 hmem with hmem | hmem
    · exact h.last (mem_of_mem_stem hmem)
    · exact absurd hmem (by decide)
  nonempty := List.append_ne_nil_of_right_ne_nil _ (by decide)

theorem encode_temporaryName_ne (l : List Char) :
    Utf8.encode (temporaryName l) ≠ Route.here ∧ Utf8.encode (temporaryName l) ≠ Route.above := by
  have hlast : (Utf8.encode (temporaryName l)).getLast? = some 0x70 := by
    have hsplit : temporaryName l = Path.stem l ++ ".toml.tm".toList ++ ['p'] := by
      rw [temporaryName, List.append_assoc]
      rfl
    rw [hsplit, Utf8.encode_append]
    exact List.getLast?_concat
  constructor <;> intro h <;> (rw [h] at hlast; exact absurd hlast (by decide))

theorem temporaryName_ne (l : List Char) : temporaryName l ≠ l := by
  intro h
  have hstem : Path.stem (Path.stem l ++ ".toml".toList ++ '.' :: "tmp".toList) =
      Path.stem l ++ ".toml".toList :=
    stem_append (List.append_ne_nil_of_right_ne_nil _ (by decide)) (by decide)
  have hname : temporaryName l = Path.stem l ++ ".toml".toList ++ '.' :: "tmp".toList := by
    rw [temporaryName, List.append_assoc]
    rfl
  rw [← hname, h] at hstem
  exact absurd (List.self_eq_append_right.1 hstem) (by decide)

theorem temporaryName_ne_here (l : List Char) :
    temporaryName l ≠ ['.'] ∧ temporaryName l ≠ ['.', '.'] := by
  obtain ⟨hhere, habove⟩ := encode_temporaryName_ne l
  exact ⟨fun h => hhere (by rw [h]; rfl), fun h => habove (by rw [h]; rfl)⟩

theorem lastSegment?_temporaryPath (h : path.fileName? = some l) :
    (temporaryPath path).lastSegment? = some (temporaryName l) := by
  obtain ⟨ls, hls⟩ := exists_core h
  have hmem (k : List Char) (hk : k ∈ ls ++ [l]) : Path.slash ∉ k :=
    not_mem_of_mem_splitOn (mem_of_mem_core (hls ▸ hk))
  have hpath : temporaryPath path = pathOf ls (temporaryName l) := by
    simp only [temporaryPath, Path.withExtension, h, hls, List.dropLast_concat]
    rw [Path.ofSegments, joinWith_concat, pathOf]
    rfl
  have hname : temporaryName l ≠ [] := List.append_ne_nil_of_right_ne_nil _ (by decide)
  have hsegmented : Segmented ls (temporaryName l) := by
    refine ⟨fun k hk => hmem k (List.mem_append_left _ hk), fun hslash => ?_, hname⟩
    rcases List.mem_append.1 hslash with hslash | hslash
    · exact hmem l (by simp) (mem_of_mem_stem hslash)
    · exact absurd hslash (by decide)
  rw [hpath, Path.lastSegment?, segments_pathOf hsegmented, List.filter_append,
    List.getLast?_append]
  simp [hname]

/-- A path with a file name is not the path of its own temporary file. -/
theorem temporaryPath_ne (h : path.fileName?.isSome) : temporaryPath path ≠ path := by
  intro heq
  obtain ⟨l, hl⟩ := Option.isSome_iff_exists.1 h
  have hlast := lastSegment?_temporaryPath hl
  rw [heq] at hlast
  obtain ⟨hhere, habove⟩ := temporaryName_ne_here l
  have hname := fileName?_of_lastSegment? hlast hhere habove
  exact temporaryName_ne l (Option.some.inj (hname.symm.trans hl))

/-- Nor does its route end like that of the temporary file. -/
theorem ne_of_temporaryPath (hr : Tree.routeAt root path = .ok r)
    (hn : r.names.getLast? = some n)
    (hrt : Tree.routeAt root (temporaryPath path) = .ok rt) (hm : rt.names.getLast? = some m)
    (hname : Tree.IsName m) : m ≠ n := by
  rintro rfl
  obtain ⟨l, hl, rfl⟩ := getLast?_names hr hn
  have hhere : l ≠ ['.'] := fun h => hname.here (h ▸ rfl)
  have habove : l ≠ ['.', '.'] := fun h => hname.above (h ▸ rfl)
  have hpath := fileName?_of_lastSegment? hl hhere habove
  obtain ⟨k, hk, hencode⟩ := getLast?_names hrt hm
  obtain rfl : temporaryName l = k :=
    Option.some.inj ((lastSegment?_temporaryPath hpath).symm.trans hk)
  have hdecode := congrArg Utf8.decode? hencode
  rw [Utf8.decode?_encode, Utf8.decode?_encode] at hdecode
  exact temporaryName_ne l (Option.some.inj hdecode).symm

/-! ## Runs -/

/-- A step that is attempted leads to success if it succeeds and what follows it does. -/
theorem run_attempt_eq_ok {step : StoreStep} {p : Path} {c : WriteCall}
    {next : Writing (Except StoreError Unit)} :
    (attempt step p c next).run (fun c => Tree.access root (.change c)) top = (.ok (), top') ↔
      ∃ made, Tree.change root top c = .ok made ∧
        next.run (fun c => Tree.access root (.change c)) made = (.ok (), top') := by
  rw [attempt, Program.run]
  cases hchange : Tree.change root top c with
  | error e =>
    simp only [Tree.access, hchange]
    constructor
    · intro h
      cases h
    · rintro ⟨_, h, -⟩
      cases h
  | ok made =>
    simp only [Tree.access, hchange]
    constructor
    · intro h
      exact ⟨made, rfl, h⟩
    · rintro ⟨_, ⟨rfl⟩, h⟩
      exact h

/-- Settings are stored if they keep the rules and each step of storing them succeeds. -/
theorem run_store_eq_ok :
    (s.store path).run (fun c => Tree.access root (.change c)) top = (.ok (), top') ↔
      s.check = .ok () ∧ ∃ directory made written, path.parent? = some directory ∧
        Tree.change root top (.createDirectory directory) = .ok made ∧
        Tree.change root made (.write (temporaryPath path) s.text) = .ok written ∧
        Tree.change root written (.rename (temporaryPath path) path) = .ok top' := by
  unfold store
  split
  · next hcheck =>
    rw [hcheck]
    exact ⟨nofun, nofun⟩
  · next hcheck hparent =>
    rw [hparent]
    exact ⟨nofun, fun ⟨_, _, _, _, h, _⟩ => nomatch h⟩
  · next directory hcheck hparent =>
    simp only [run_attempt_eq_ok, hcheck, hparent, Program.run, Prod.mk.injEq, true_and]
    constructor
    · rintro ⟨made, hmade, written, hwritten, moved, hmoved, rfl⟩
      exact ⟨directory, made, written, rfl, hmade, hwritten, hmoved⟩
    · rintro ⟨_, made, written, ⟨rfl⟩, hmade, hwritten, hmoved⟩
      exact ⟨made, hmade, written, hwritten, _, hmoved, rfl⟩

/-- The routes of the two paths that settings are written to differ in the last name. -/
theorem exists_routes {made written : Tree} {content : List Char}
    (hwritten : Tree.change root made (.write (temporaryPath path) content) = .ok written)
    (hmoved : Tree.change root written (.rename (temporaryPath path) path) = .ok top') :
    ∃ ns m n, m ≠ Route.here ∧ m ≠ Route.above ∧
      Tree.routeAt root (temporaryPath path) = .ok ⟨ns ++ [m], false⟩ ∧
      Tree.routeAt root path = .ok ⟨ns ++ [n], false⟩ := by
  obtain ⟨rt, hrt, hwrite⟩ := bind_eq_ok.1 hwritten
  obtain ⟨_, -, hmoved⟩ := bind_eq_ok.1 hmoved
  obtain ⟨rp, hrp, hmoved⟩ := bind_eq_ok.1 hmoved
  obtain ⟨_, _, n, -, -, hlast, hname, hclosed, -⟩ := Tree.exists_of_rename hmoved
  have hne : rp.names ≠ [] := by
    intro hnil
    rw [hnil] at hlast
    cases hlast
  obtain ⟨ls, l, hl, rfl, hroot⟩ := exists_segments hrp hclosed hne
  obtain ⟨_, rfl, -⟩ := routeAt_pathOf hl hl hroot hroot hrp
  obtain rfl : Utf8.encode l = n := by simpa using hlast
  have hhere : l ≠ ['.'] := fun h => hname.here (h ▸ rfl)
  have habove : l ≠ ['.', '.'] := fun h => hname.above (h ▸ rfl)
  rw [temporaryPath_pathOf hl hhere habove] at hrt ⊢
  have ht := segmented_temporaryName hl
  have htroot : pathOf ls (temporaryName l) ≠ root := by
    rintro rfl
    cases (closed_of_routeAt_root hrt).symm.trans (Tree.closed_of_write hwrite)
  obtain ⟨ns, hns, htns⟩ := routeAt_pathOf hl ht hroot htroot hrp
  obtain ⟨hhere, habove⟩ := encode_temporaryName_ne l
  exact ⟨ns, _, _, hhere, habove, htns, hns ▸ hrp⟩

theorem at?_ne_link {p : Path} {r : Route} (hr : Tree.routeAt root p = .ok r)
    (h : top.isLinkAt root p = false) (target : List UInt8) :
    top.at? false r ≠ some (.link target) := by
  intro hlink
  rw [Tree.isLinkAt, hr] at h
  simp only [Except.toOption, Option.bind_some, hlink] at h
  cases h

theorem links_of_not_passesLink {p : Path} {ns : List FileName} {n : FileName} {d : Arrival}
    (hr : Tree.routeAt root p = .ok ⟨ns ++ [n], false⟩) (h : top.passesLink root p = false)
    (hd : Tree.Holds top ns d) : d.links = Tree.maxLinks := by
  have harrive : top.arrive true ⟨ns, true⟩ = .ok d := hd.walks.walk_eq
  have hparent : Route.parent ⟨ns ++ [n], false⟩ = ⟨ns, true⟩ := by simp [Route.parent]
  rw [Tree.passesLink, hr] at h
  change (match top.arrive true (Route.parent ⟨ns ++ [n], false⟩) with
    | .ok a => a.links != Tree.maxLinks
    | .error _ => false) = false at h
  rw [hparent, harrive] at h
  simpa using h

/-- The settings of a file are loaded where the path leads to the file. -/
theorem load_of_follow {r : Route} {w : Way} {content : List UInt8}
    (hr : Tree.routeAt root path = .ok r) (hw : top.follow true r = .ok w)
    (hend : w.end top = .file content) :
    ((load path).run (Tree.access root) top).1 = ofFile (.bytes content) := by
  have hreach : Tree.reach root top path = .ok w := bind_eq_ok.2 ⟨r, hr, hw⟩
  have hcontent : (Tree.routeAt root path >>= fun r => top.content r) = .ok content := by
    refine bind_eq_ok.2 ⟨r, hr, bind_eq_ok.2 ⟨w, hw, ?_⟩⟩
    rw [hend]
    rfl
  simp only [load, Program.run, Tree.access, hreach, Except.isOk, Except.toBool, if_true, hcontent]

/-- The defaults are loaded where the path leads nowhere. -/
theorem load_of_not_reach (h : (Tree.reach root top path).isOk = false) :
    ((load path).run (Tree.access root) top).1 = .ok {} := by
  simp only [load, Program.run, Tree.access, h, Bool.false_eq_true, if_false, ofFile]

/-- The tree in which the directory of a path has been created. -/
def prepared? (root path : Path) (top : Tree) : Option Tree :=
  path.parent?.bind fun directory => (Tree.change root top (.createDirectory directory)).toOption

/-- What storing does to the tree: it writes a file, and moves it to another name in the same
directory. -/
theorem exists_replace (h : (s.store path).run (fun c => Tree.access root (.change c)) top =
    (.ok (), top')) : s.check = .ok () ∧ ∃ made written ns m n,
      prepared? root path top = some made ∧ m ≠ Route.here ∧ m ≠ Route.above ∧
      Tree.routeAt root (temporaryPath path) = .ok ⟨ns ++ [m], false⟩ ∧
      Tree.routeAt root path = .ok ⟨ns ++ [n], false⟩ ∧
      made.write ⟨ns ++ [m], false⟩ (Utf8.encode s.text) = .ok written ∧
      written.rename ⟨ns ++ [m], false⟩ ⟨ns ++ [n], false⟩ = .ok top' := by
  obtain ⟨hcheck, directory, made, written, hparent, hmade, hwritten, hmoved⟩ :=
    run_store_eq_ok.1 h
  obtain ⟨ns, m, n, hhere, habove, hrt, hrp⟩ := exists_routes hwritten hmoved
  refine ⟨hcheck, made, written, ns, m, n, ?_, hhere, habove, hrt, hrp, ?_, ?_⟩
  · rw [prepared?, hparent]
    exact toOption_eq_some_iff.2 hmade
  · rwa [Tree.change, hrt] at hwritten
  · rwa [Tree.change, hrt, hrp] at hmoved

/-- The text of settings is loaded as these settings. -/
theorem ofFile_text (hfits : s.Fits) (hcheck : s.check = .ok ()) :
    ofFile (.bytes (Utf8.encode s.text)) = .ok s := by
  rw [ofFile, Utf8.decode?_encode]
  exact ofText_text hfits hcheck

/-- The path leads anywhere after storing if and only if the temporary path led past its entry. -/
theorem leadsPast_iff_follow {made written : Tree} {ns : List FileName} {content : List UInt8}
    (hhere : m ≠ Route.here) (habove : m ≠ Route.above)
    (hrt : Tree.routeAt root (temporaryPath path) = .ok ⟨ns ++ [m], false⟩)
    (hrp : Tree.routeAt root path = .ok ⟨ns ++ [n], false⟩)
    (hwritten : made.write ⟨ns ++ [m], false⟩ content = .ok written)
    (hmoved : written.rename ⟨ns ++ [m], false⟩ ⟨ns ++ [n], false⟩ = .ok top') :
    made.leadsPast root (temporaryPath path) path ↔
      ∃ w, top'.follow true ⟨ns ++ [n], false⟩ = .ok w := by
  obtain ⟨d, _, hd, H, -⟩ := Tree.exists_writes hwritten hhere habove
  have hmn : m ≠ n :=
    ne_of_temporaryPath hrp List.getLast?_concat hrt List.getLast?_concat H.isName
  rw [Tree.leadsPast_iff (hd.entry? hrp) hrt]
  exact (Tree.exists_follow_iff hhere habove hmn hd hwritten hmoved).symm

/-- Settings that have been stored at a path are loaded from it if the temporary path led past its
entry, and else the defaults are. It did if no link stood at the temporary path, and none that was
replaced had led to its directory. -/
theorem load_of_store (hfits : s.Fits)
    (h : (s.store path).run (fun c => Tree.access root (.change c)) top = (.ok (), top')) :
    ∃ made, prepared? root path top = some made ∧
      ((load path).run (Tree.access root) top').1 =
        .ok (if made.leadsPast root (temporaryPath path) path then s else {}) ∧
      (made.isLinkAt root (temporaryPath path) = false →
        made.isLinkAt root path = false ∨ made.passesLink root path = false →
          made.leadsPast root (temporaryPath path) path) := by
  obtain ⟨hcheck, made, written, ns, m, n, hmade, hhere, habove, hrt, hrp, hwritten, hmoved⟩ :=
    exists_replace h
  have hiff := leadsPast_iff_follow hhere habove hrt hrp hwritten hmoved
  refine ⟨made, hmade, ?_, fun htemporary hreplaced => hiff.2 ?_⟩
  · split_ifs with hpast
    · obtain ⟨w, hw⟩ := hiff.1 hpast
      have hend := Tree.end_of_replace hhere habove hwritten hmoved hw
      rw [load_of_follow hrp hw hend, ofFile_text hfits hcheck]
    · apply load_of_not_reach
      cases hreach : Tree.reach root top' path with
      | error e => rfl
      | ok w =>
        obtain ⟨r, hr, hw⟩ := bind_eq_ok.1 hreach
        cases hr.symm.trans hrp
        exact absurd (hiff.2 ⟨w, hw⟩) hpast
  · obtain ⟨w, hw, -⟩ := Tree.exists_of_replace hhere habove (at?_ne_link hrt htemporary)
      (hreplaced.imp (at?_ne_link hrp) fun h _ => links_of_not_passesLink hrp h) hwritten hmoved
    exact ⟨w, hw⟩

/-- A tree where `site` is a link to a directory with these files. -/
def behindLink (files : List (String × List UInt8)) : Tree :=
  .directory [(Utf8.encode "site".toList, .link (Utf8.encode "real".toList)),
    (Utf8.encode "real".toList,
      .directory (files.map fun f => (Utf8.encode f.1.toList, .file f.2)))]

/-- The directory of the path is a link, older settings are replaced, and a text has quotes of both
kinds, a backslash and a line break in it. -/
theorem load_of_store_behind_link :
    let s : Settings := { worker := { siteConfig := "it's \"a\\b\"\n" } }
    let path : Path := "site/panel.toml".toList
    let top' := behindLink [("panel.toml", Utf8.encode s.text)]
    (s.store path).run (fun c => Tree.access [] (.change c)) (behindLink [("panel.toml", [])]) =
        (.ok (), top') ∧
      ((load path).run (Tree.access []) top').1 = .ok s := by
  have hmade : Tree.change [] (behindLink [("panel.toml", [])])
      (.createDirectory "site".toList) = .ok (behindLink [("panel.toml", [])]) := by
    cbv
  have hwritten (cs : List Char) : Tree.change [] (behindLink [("panel.toml", [])])
      (.write "site/panel.toml.tmp".toList cs) =
        .ok (behindLink [("panel.toml", []), ("panel.toml.tmp", Utf8.encode cs)]) := by
    cbv
  have hmoved (content : List UInt8) :
      Tree.change [] (behindLink [("panel.toml", []), ("panel.toml.tmp", content)])
        (.rename "site/panel.toml.tmp".toList "site/panel.toml".toList) =
          .ok (behindLink [("panel.toml", content)]) := by
    cbv
  have hpast : (behindLink [("panel.toml", [])]).leadsPast [] "site/panel.toml.tmp".toList
      "site/panel.toml".toList := by
    cbv
  intro s path top'
  have hparent : path.parent? = some "site".toList := by decide
  have htemporary : temporaryPath path = "site/panel.toml.tmp".toList := by decide
  have hstored : (s.store path).run (fun c => Tree.access [] (.change c))
      (behindLink [("panel.toml", [])]) = (.ok (), top') := by
    refine run_store_eq_ok.2 ⟨by decide, _, _, _, hparent, hmade, ?_, hmoved _⟩
    rw [htemporary]
    exact hwritten s.text
  obtain ⟨made, hprepared, hload, -⟩ :=
    load_of_store ⟨by decide, by decide, by decide, by decide⟩ hstored
  rw [prepared?, hparent, Option.bind_some, hmade] at hprepared
  cases hprepared
  rw [htemporary, if_pos hpast] at hload
  exact ⟨hstored, hload⟩

/-- A directory with these entries. -/
def shelf (entries : List (String × Tree)) : Tree :=
  .directory (entries.map fun e => (Utf8.encode e.1.toList, e.2))

/-- A link to the settings file stands at the temporary path. -/
def linkedBack : Tree :=
  shelf [("panel.toml", .file []), ("panel.toml.tmp", .link (Utf8.encode "panel.toml".toList))]

/-- The text goes to the settings file, and then the link takes the place of this file. So the
settings are lost although they have been stored, and the defaults are loaded. -/
theorem store_over_itself :
    let s : Settings := { repository := { targetBranch := "drafts" } }
    ∃ t, (s.store "panel.toml".toList).run (fun c => Tree.access [] (.change c)) linkedBack =
        (.ok (), t) ∧
      ((load "panel.toml".toList).run (Tree.access []) t).1 = .ok {} ∧
      ((load "panel.toml".toList).run (Tree.access []) t).1 ≠ .ok s := by
  have hparent : Path.parent? "panel.toml".toList = some [] := by decide
  have htemporary : temporaryPath "panel.toml".toList = "panel.toml.tmp".toList := by decide
  have hmade : Tree.change [] linkedBack (.createDirectory []) = .ok linkedBack := by cbv
  have hwritten (cs : List Char) :
      Tree.change [] linkedBack (.write "panel.toml.tmp".toList cs) =
        .ok (shelf [("panel.toml", .file (Utf8.encode cs)),
          ("panel.toml.tmp", .link (Utf8.encode "panel.toml".toList))]) := by
    cbv
  have hmoved (content : List UInt8) :
      Tree.change [] (shelf [("panel.toml", .file content),
          ("panel.toml.tmp", .link (Utf8.encode "panel.toml".toList))])
        (.rename "panel.toml.tmp".toList "panel.toml".toList) =
          .ok (shelf [("panel.toml", .link (Utf8.encode "panel.toml".toList))]) := by
    cbv
  have hreach : (Tree.reach [] (shelf [("panel.toml", .link (Utf8.encode "panel.toml".toList))])
      "panel.toml".toList).isOk = false := by
    cbv
  intro s
  have hload := load_of_not_reach hreach
  refine ⟨_, run_store_eq_ok.2
    ⟨by decide, _, _, _, hparent, hmade, ?_, hmoved (Utf8.encode s.text)⟩, hload, ?_⟩
  · rw [htemporary]
    exact hwritten _
  · rw [hload]
    decide

end Settings
end PublishDesk
