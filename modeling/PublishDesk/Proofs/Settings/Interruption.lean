import PublishDesk.Proofs.FileSystem.Growth
import PublishDesk.Proofs.Settings.Storage

/-!
# Settings that are stored in part

The text of settings can always be made, but each of the calls that store it may fail, with a part
of its work done or nothing of it. As long as no link stands at the temporary path, the settings
file is then what it was before, and only when nothing fails is it replaced, by one with the whole
text; besides it, no file is changed but the temporary one (`store_atomic`). Through a link the text
would go where the link leads (`store_through_link`).

The run is cut where it stops (`Stops`). Up to the temporary file only directories are new
(`Tree.Grown`); from there on one entry is written, and its name is not that of the settings file
(`ne_of_temporaryPath`).
-/

namespace PublishDesk
open Text

variable {root path : Path} {top made written t : Tree} {s : Settings} {content : List UInt8}
  {l : List Char} {m n : FileName} {r rt : Route} {result : Except StoreError Unit}
  {faults : WriteCall → Option WriteFault} {c : WriteCall}

namespace Tree

/-! ## Calls that may fail -/

theorem change_of_changeOrFail (h : changeOrFail root faults c top = (.ok (), t)) :
    change root top c = .ok t := by
  unfold changeOrFail at h
  split at h
  · rw [access] at h
    split at h
    · next hchange =>
      cases h
      exact hchange
    · cases h
  · cases h

/-- A change that fails leaves nothing behind, or a part of the change. -/
theorem changePart_of_changeOrFail {e : FileError}
    (h : changeOrFail root faults c top = (.error e, t)) :
    t = top ∨ ∃ made, changePart root top made c = .ok t := by
  unfold changeOrFail at h
  split at h
  · rw [access] at h
    split at h
    · cases h
    · cases h
      exact .inl rfl
  · next fault _ =>
    cases hmade : fault.made.bind fun n => (changePart root top n c).toOption with
    | none =>
      rw [hmade] at h
      cases h
      exact .inl rfl
    | some t' =>
      rw [hmade] at h
      cases h
      obtain ⟨n, -, hn⟩ := Option.bind_eq_some_iff.1 hmade
      exact .inr ⟨n, toOption_eq_some_iff.1 hn⟩

end Tree

namespace Settings

/-! ## Where storing settings stops -/

/-- How far storing settings gets, with its result and the tree it leaves behind. -/
inductive Stops (s : Settings) (root path : Path) (top : Tree) :
    Except StoreError Unit → Tree → Prop
  | refused {rule : SettingsRule} :
    Stops s root path top (.error (.invalid rule)) top
  /-- Nothing was written, but some directories may have been created. -/
  | unwritten {e : StoreError} {t : Tree} (ht : top.Grown t) :
    Stops s root path top (.error e) t
  /-- Something was written to the temporary path, but not moved. -/
  | unmoved {e : StoreError} {made t : Tree} {content : List UInt8} {rt : Route}
    (hmade : prepared? root path top = some made)
    (hrt : Tree.routeAt root (temporaryPath path) = .ok rt) (ht : made.write rt content = .ok t) :
    Stops s root path top (.error e) t
  | replaced {made written t : Tree} (hmade : prepared? root path top = some made)
    (hwritten : Tree.change root made (.write (temporaryPath path) s.text) = .ok written)
    (hmoved : Tree.change root written (.rename (temporaryPath path) path) = .ok t) :
    Stops s root path top (.ok ()) t

theorem run_attempt_cases {answer : WriteCall → Tree → Except FileError Unit × Tree}
    {step : StoreStep} {p : Path} {next : Writing (Except StoreError Unit)}
    (h : (attempt step p c next).run answer top = (result, t)) :
    (∃ made, answer c top = (.ok (), made) ∧ next.run answer made = (result, t)) ∨
      ∃ e, answer c top = (.error e, t) ∧ result = .error (.failed step p e) := by
  rw [attempt, Program.run] at h
  cases hanswer : answer c top with
  | mk outcome made =>
    rw [hanswer] at h
    cases outcome with
    | error e =>
      cases h
      exact .inr ⟨e, rfl, rfl⟩
    | ok _ => exact .inl ⟨made, rfl, h⟩

theorem stops_of_run
    (h : (s.store path).run (Tree.changeOrFail root faults) top = (result, t)) :
    Stops s root path top result t := by
  unfold store at h
  split at h
  · cases h
    exact .refused
  · cases h
    exact .unwritten (.refl top)
  · next directory _ hparent =>
    obtain ⟨made, hmade, h⟩ | ⟨e, hfail, rfl⟩ := run_attempt_cases h
    · have hmade := Tree.change_of_changeOrFail hmade
      have hprepared : prepared? root path top = some made := by
        rw [prepared?, hparent]
        exact toOption_eq_some_iff.2 hmade
      obtain ⟨written, hwritten, h⟩ | ⟨e, hfail, rfl⟩ := run_attempt_cases h
      · have hwritten := Tree.change_of_changeOrFail hwritten
        obtain ⟨moved, hmoved, h⟩ | ⟨e, hfail, rfl⟩ := run_attempt_cases h
        · cases h
          exact .replaced hprepared hwritten (Tree.change_of_changeOrFail hmoved)
        · obtain ⟨rt, hrt, hwrite⟩ := bind_eq_ok.1 hwritten
          obtain rfl : t = written := by
            obtain ht | ⟨_, ht⟩ := Tree.changePart_of_changeOrFail hfail
            · exact ht
            · exact (Except.ok.inj ht).symm
          exact .unmoved hprepared hrt hwrite
      · obtain rfl | ⟨_, ht⟩ := Tree.changePart_of_changeOrFail hfail
        · exact .unwritten (Tree.grown_of_change hmade)
        · obtain ⟨rt, hrt, hwrite⟩ := bind_eq_ok.1 ht
          exact .unmoved hprepared hrt hwrite
    · obtain rfl | ⟨_, ht⟩ := Tree.changePart_of_changeOrFail hfail
      · exact .unwritten (.refl t)
      · refine .unwritten ?_
        rw [Tree.changePart] at ht
        split at ht
        · cases ht
          exact .refl top
        · obtain ⟨_, -, ht⟩ := bind_eq_ok.1 ht
          exact Tree.grown_of_createDirectory ht

/-! ## The entries of the two paths -/

theorem grown_of_prepared? (h : prepared? root path top = some made) : top.Grown made := by
  obtain ⟨directory, -, h⟩ := Option.bind_eq_some_iff.1 h
  exact Tree.grown_of_change (toOption_eq_some_iff.1 h)

/-- What is read at a path where no link stands is in a file at its entry. -/
theorem exists_file_of_read? (htop : top.isDirectory) (hplain : top.isLinkAt root path = false)
    (h : top.read? root path = some content) :
    ∃ ns n d, Tree.routeAt root path = .ok ⟨ns ++ [n], false⟩ ∧ Tree.IsName n ∧
      Tree.Holds top ns d ∧ top.thing? (d.way.names ++ [n]) = some (.file content) := by
  obtain ⟨ns, n, d, hr, hn, hd, hfile | ⟨target, hlink⟩⟩ := Tree.exists_holds_of_read? htop h
  · exact ⟨ns, n, d, hr, hn, hd, hfile⟩
  · exact absurd (hd.at?_link hn hlink) (at?_ne_link hr hplain target)

/-- What is written to a path where no link stands is at its entry. -/
theorem exists_written (htop : made.isDirectory) (hr : Tree.routeAt root path = .ok r)
    (hplain : made.isLinkAt root path = false) (h : made.write r content = .ok t) :
    ∃ ns m d, r = ⟨ns ++ [m], false⟩ ∧ Tree.IsName m ∧ Tree.Holds made ns d ∧
      Tree.FilePlace made (d.way.names ++ [m]) ∧
      t = Tree.set (.file content) (d.way.names ++ [m]) made := by
  obtain ⟨ns, m, rfl, hm⟩ := Tree.exists_last_of_write htop h
  obtain ⟨d, hd, -, hplace, rfl⟩ :=
    Tree.exists_writes_of_plain hm.here hm.above (at?_ne_link hr hplain) h
  exact ⟨ns, m, d, rfl, hm, hd, hplace, rfl⟩

/-! ## What becomes of the files -/

/-- What storing settings does to the files of a tree, whether it succeeds or not. Entries are those
in the tree where the directory of the path has been created, if that succeeds. -/
structure Atomic (s : Settings) (root path : Path) (top : Tree) (result : Except StoreError Unit)
    (top' : Tree) : Prop where
  /-- No file or link changes but the one at the temporary path and, if nothing fails, the one at
  the path. -/
  changed : ∀ q, top'.leaf? q ≠ top.leaf? q → ∃ made, prepared? root path top = some made ∧
    (made.entry? root (temporaryPath path) = some q ∨
      result = .ok () ∧ made.entry? root path = some q)
  /-- After a failure the entry of the path holds what it held before, or nothing if it held
  nothing. -/
  kept : ∀ e made q, result = .error e → prepared? root path top = some made →
    made.entry? root path = some q → top'.leaf? q = top.leaf? q
  readable : ∀ e content, result = .error e → top.isLinkAt root path = false →
    top.read? root path = some content → top'.read? root path = some content
  /-- Without a failure the entry of the path holds the whole text, and there is no temporary
  file beside it. -/
  stored : result = .ok () → ∃ made ds m n, prepared? root path top = some made ∧
    made.entry? root (temporaryPath path) = some (ds ++ [m]) ∧
    made.entry? root path = some (ds ++ [n]) ∧ m ≠ n ∧
    top'.leaf? (ds ++ [n]) = some (.file (Utf8.encode s.text)) ∧ top'.thing? (ds ++ [m]) = none
  found : ∀ made, result = .ok () → prepared? root path top = some made →
    made.isLinkAt root path = false ∨ made.passesLink root path = false →
    top'.read? root path = some (Utf8.encode s.text)

theorem atomic_of_refused (rule : SettingsRule) :
    Atomic s root path top (.error (.invalid rule)) top where
  changed _ hq := absurd rfl hq
  kept _ _ _ _ _ _ := rfl
  readable _ _ _ _ h := h
  stored h := nomatch h
  found _ h := nomatch h

theorem atomic_of_grown {e : StoreError} (htop : top.isDirectory) (ht : top.Grown t) :
    Atomic s root path top (.error e) t where
  changed q hq := absurd (ht.leaf?_eq q) hq
  kept _ _ q _ _ _ := ht.leaf?_eq q
  readable _ content _ hplain h := by
    obtain ⟨ns, n, d, hr, hn, hd, hfile⟩ := exists_file_of_read? htop hplain h
    obtain ⟨d', hd', hnames⟩ := ht.holds hd
    exact hd'.read? hr hn (hnames ▸ ht.keeps _ _ hfile)
  stored h := nomatch h
  found _ h := nomatch h

theorem atomic_of_write {e : StoreError} (htop : top.isDirectory)
    (hmade : prepared? root path top = some made)
    (hrt : Tree.routeAt root (temporaryPath path) = .ok rt)
    (hplain : made.isLinkAt root (temporaryPath path) = false)
    (ht : made.write rt content = .ok t) : Atomic s root path top (.error e) t := by
  have hgrown := grown_of_prepared? hmade
  obtain ⟨ns, m, d, rfl, hm, hd, hplace, rfl⟩ :=
    exists_written (hgrown.isDirectory htop) hrt hplain ht
  have hleaf {q : List FileName} (hq : q ≠ d.way.names ++ [m]) :
      (Tree.set (.file content) (d.way.names ++ [m]) made).leaf? q = top.leaf? q :=
    (Tree.leaf?_eq_of_thing?_eq (hplace.thing?_set_of_ne hq content)).trans (hgrown.leaf?_eq q)
  -- The last name of the path is another one.
  have hne {r : Route} {n : FileName} (hr : Tree.routeAt root path = .ok r)
      (hn : r.names.getLast? = some n) : m ≠ n :=
    ne_of_temporaryPath hr hn hrt List.getLast?_concat hm
  constructor
  case changed =>
    intro q hq
    refine ⟨made, hmade, .inl ((hd.entry? hrt).trans (congrArg some ?_))⟩
    by_contra h
    exact hq (hleaf (Ne.symm h))
  case kept =>
    intro _ _ q _ hmade' hq
    cases hmade.symm.trans hmade'
    obtain ⟨r, es, n, hr, hn, rfl⟩ := Tree.exists_of_entry? hq
    exact hleaf (Tree.concat_ne_concat (hne hr hn).symm)
  case readable =>
    intro _ old _ hplain' h
    obtain ⟨ks, n, k, hr, hn, hk, hfile⟩ := exists_file_of_read? htop hplain' h
    obtain ⟨k₁, hk₁, hnames₁⟩ := hgrown.holds hk
    obtain ⟨k₂, hk₂, hnames₂, -⟩ := hk₁.write hplace content
    refine hk₂.read? hr hn ?_
    rw [hnames₂, hnames₁,
      hplace.thing?_set_of_ne (Tree.concat_ne_concat (hne hr List.getLast?_concat).symm) content]
    exact hgrown.keeps _ _ hfile
  case stored =>
    intro h
    cases h
  case found =>
    intro _ h
    cases h

theorem atomic_of_replace (htop : top.isDirectory)
    (hmade : prepared? root path top = some made)
    (hplain : made.isLinkAt root (temporaryPath path) = false)
    (hwritten : Tree.change root made (.write (temporaryPath path) s.text) = .ok written)
    (hmoved : Tree.change root written (.rename (temporaryPath path) path) = .ok t) :
    Atomic s root path top (.ok ()) t := by
  have hgrown := grown_of_prepared? hmade
  obtain ⟨ns, m, n, hhere, habove, hrt, hrp⟩ := exists_routes hwritten hmoved
  rw [Tree.change, hrt] at hwritten
  rw [Tree.change, hrt, hrp] at hmoved
  obtain ⟨_, _, d, hroute, hm, hd, hplace, rfl⟩ :=
    exists_written (hgrown.isDirectory htop) hrt hplain hwritten
  obtain ⟨rfl, ⟨⟩⟩ := List.append_inj' (congrArg Route.names hroute) rfl
  have hmn : m ≠ n := ne_of_temporaryPath hrp List.getLast?_concat hrt List.getLast?_concat hm
  have H := hd.replaced hm hplace hmoved
  constructor
  case changed =>
    intro q hq
    refine ⟨made, hmade, ?_⟩
    by_cases hqm : q = d.way.names ++ [m]
    · exact .inl (hqm ▸ hd.entry? hrt)
    · by_cases hqn : q = d.way.names ++ [n]
      · exact .inr ⟨rfl, hqn ▸ hd.entry? hrp⟩
      · have hthing := H.thing?_of_ne (by simp [Tree.thing]) hmn hqm hqn hqm
        exact absurd ((Tree.leaf?_eq_of_thing?_eq hthing).trans (hgrown.leaf?_eq q)) hq
  case kept =>
    intro _ _ _ h
    cases h
  case readable =>
    intro _ _ h
    cases h
  case stored =>
    intro _
    refine ⟨made, d.way.names, m, n, hmade, hd.entry? hrt, hd.entry? hrp, hmn, ?_, ?_⟩
    · exact Tree.leaf?_eq_some_iff.2 ⟨H.moved, by simp⟩
    · exact H.gone (Tree.concat_ne_concat hmn)
  case found =>
    intro made' _ hmade' hlinks
    cases hmade.symm.trans hmade'
    obtain ⟨w, hw, hend⟩ := Tree.exists_of_replace hhere habove (at?_ne_link hrt hplain)
      (hlinks.imp (at?_ne_link hrp) fun h _ => links_of_not_passesLink hrp h) hwritten hmoved
    exact Tree.read?_of_follow hrp hw hend

/-- The temporary path is another one, and settings that break a rule change nothing. Storing
settings replaces the settings file as a whole or leaves it alone, whichever of its calls fail and
however much of their work they have done, if no link stands at the temporary path. -/
theorem store_atomic (s : Settings) (root path : Path) (top : Tree)
    (faults : WriteCall → Option WriteFault) :
    (path.fileName?.isSome → temporaryPath path ≠ path) ∧
      (∀ rule, s.check = .error rule →
        (s.store path).run (Tree.changeOrFail root faults) top = (.error (.invalid rule), top)) ∧
      (top.isDirectory →
        (∀ made, prepared? root path top = some made →
          made.isLinkAt root (temporaryPath path) = false) →
        Atomic s root path top ((s.store path).run (Tree.changeOrFail root faults) top).1
          ((s.store path).run (Tree.changeOrFail root faults) top).2) := by
  refine ⟨temporaryPath_ne, fun rule hcheck => ?_, fun htop hplain => ?_⟩
  · rw [store, hcheck]
    rfl
  · generalize hrun : (s.store path).run (Tree.changeOrFail root faults) top = run
    obtain ⟨result, t⟩ := run
    cases stops_of_run hrun with
    | refused => exact atomic_of_refused _
    | unwritten ht => exact atomic_of_grown htop ht
    | unmoved hmade hrt ht => exact atomic_of_write htop hmade hrt (hplain _ hmade) ht
    | replaced hmade hwritten hmoved =>
      exact atomic_of_replace htop hmade (hplain _ hmade) hwritten hmoved

/-- A disk that is full after a few bytes. -/
def fullDisk : WriteCall → Option WriteFault
  | .write _ _ => some ⟨some 7, .other "No space left on device (os error 28)"⟩
  | _ => none

/-- A settings file whose directory is a link. -/
def oldSettings : Tree := behindLink [("panel.toml", [0x23])]

/-- The disk is full while the settings are written, and the old ones can still be read. -/
theorem store_atomic_full_disk :
    ∃ t, (store {} "site/panel.toml".toList).run (Tree.changeOrFail [] fullDisk) oldSettings =
        (.error (.failed .writeTemporary "site/panel.toml.tmp".toList
          (.other "No space left on device (os error 28)")), t) ∧
      t.read? [] "site/panel.toml".toList = some [0x23] := by
  have hparent : Path.parent? "site/panel.toml".toList = some "site".toList := by decide
  have htemporary : temporaryPath "site/panel.toml".toList = "site/panel.toml.tmp".toList := by
    decide
  have hmade : Tree.change [] oldSettings (.createDirectory "site".toList) = .ok oldSettings := by
    cbv
  have hplain : oldSettings.isLinkAt [] "site/panel.toml.tmp".toList = false ∧
      oldSettings.isLinkAt [] "site/panel.toml".toList = false := by
    constructor <;> cbv
  have hold : oldSettings.read? [] "site/panel.toml".toList = some [0x23] := by cbv
  have hcheck : check {} = .ok () := by decide
  obtain ⟨t, hrun⟩ : ∃ t, (store {} "site/panel.toml".toList).run
      (Tree.changeOrFail [] fullDisk) oldSettings =
        (.error (.failed .writeTemporary "site/panel.toml.tmp".toList
          (.other "No space left on device (os error 28)")), t) := by
    simp only [store, hcheck, hparent, htemporary, attempt, Program.run, Tree.changeOrFail,
      fullDisk, Tree.access, hmade]
    exact ⟨_, rfl⟩
  have hatomic := (store_atomic {} [] "site/panel.toml".toList oldSettings fullDisk).2.2 rfl
    fun made hprepared => by
      rw [prepared?, hparent, Option.bind_some, hmade] at hprepared
      cases hprepared
      exact htemporary ▸ hplain.1
  rw [hrun] at hatomic
  exact ⟨t, hrun, hatomic.readable _ _ rfl hplain.2 hold⟩

def newFile : FileName := Utf8.encode "new".toList

/-- A link to a file that does not exist stands at the temporary path. -/
def linkedTemporary : Tree := shelf [("panel.toml.tmp", .link newFile)]

/-- The settings are stored, but the text is in the file that the link leads to, which is new, and
neither that of the path nor the temporary one. -/
theorem store_through_link :
    ∃ t, (store {} "panel.toml".toList).run (Tree.changeOrFail [] fun _ => none) linkedTemporary =
        (.ok (), t) ∧
      linkedTemporary.leaf? [newFile] = none ∧
      t.leaf? [newFile] = some (.file (Utf8.encode (text {}))) ∧
      ¬Atomic {} [] "panel.toml".toList linkedTemporary (.ok ()) t := by
  have hparent : Path.parent? "panel.toml".toList = some [] := by decide
  have htemporary : temporaryPath "panel.toml".toList = "panel.toml.tmp".toList := by decide
  have hmade : Tree.change [] linkedTemporary (.createDirectory []) = .ok linkedTemporary := by
    cbv
  have hwritten (cs : List Char) :
      Tree.change [] linkedTemporary (.write "panel.toml.tmp".toList cs) =
        .ok (shelf [("panel.toml.tmp", .link newFile), ("new", .file (Utf8.encode cs))]) := by
    cbv
  have hmoved (content : List UInt8) :
      Tree.change [] (shelf [("panel.toml.tmp", .link newFile), ("new", .file content)])
        (.rename "panel.toml.tmp".toList "panel.toml".toList) =
          .ok (shelf [("new", .file content), ("panel.toml", .link newFile)]) := by
    cbv
  have hold : linkedTemporary.leaf? [newFile] = none := by cbv
  have hnew (content : List UInt8) : (shelf [("new", .file content),
      ("panel.toml", .link newFile)]).leaf? [newFile] = some (.file content) := by
    cbv
  have hentry : linkedTemporary.entry? [] "panel.toml".toList =
      some [Utf8.encode "panel.toml".toList] := by
    cbv
  have htemporaryEntry : linkedTemporary.entry? [] "panel.toml.tmp".toList =
      some [Utf8.encode "panel.toml.tmp".toList] := by
    cbv
  have hrun : (store {} "panel.toml".toList).run (Tree.changeOrFail [] fun _ => none)
      linkedTemporary = (.ok (),
        shelf [("new", .file (Utf8.encode (text {}))), ("panel.toml", .link newFile)]) := by
    refine run_store_eq_ok.2 ⟨by decide, _, _, _, hparent, hmade, ?_, hmoved _⟩
    rw [htemporary]
    exact hwritten _
  refine ⟨_, hrun, hold, hnew _, fun hatomic => ?_⟩
  obtain ⟨made, hprepared, hchanged⟩ := hatomic.changed [newFile] (by
    rw [hold, hnew]
    exact Option.some_ne_none _)
  rw [prepared?, hparent, Option.bind_some, hmade] at hprepared
  cases hprepared
  rw [htemporary, htemporaryEntry, hentry] at hchanged
  rcases hchanged with h | ⟨-, h⟩
  · exact absurd h (by decide)
  · exact absurd h (by decide)

end Settings
end PublishDesk
