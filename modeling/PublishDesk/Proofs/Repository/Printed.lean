import PublishDesk.Proofs.Text.Trim
import PublishDesk.Proofs.Text.Utf8
import PublishDesk.Repository.Git

/-!
# What git prints

`git` prints branches and staged files one on a line. The blanks at the ends of what it prints are
taken off, and more than the line end may be blank there: names of branches may start or end with
blanks that are not ASCII, and a file may be called by a blank. `Git.reads` says when what is read
is what was printed.
-/

namespace PublishDesk.Git

open Text (trim hasBlankEdge isBlankText terminated)

/-! ## Names -/

/-- Whether a branch may have a character in its name. -/
def isRefChar (c : Char) : Bool :=
  0x20 < c.toNat && c.toNat != 0x7f && !(['~', '^', ':', '?', '*', '[', '\\'].contains c)

structure IsRefName (name : String) : Prop where
  nonempty : name ≠ ""
  allowed : ∀ c ∈ name.toList, isRefChar c

instance (name : String) : Decidable (IsRefName name) :=
  decidable_of_iff (name ≠ "" ∧ name.toList.all isRefChar)
    ⟨fun h => ⟨h.1, List.all_eq_true.1 h.2⟩, fun h => ⟨h.nonempty, List.all_eq_true.2 h.allowed⟩⟩

/-- A name without the blanks at its ends. -/
def bare (name : String) : String := String.ofList (trim name.toList)

def bytes (name : String) : List UInt8 := Text.Utf8.encode name.toList

/-- Entries as they are printed: each of them with a line end. -/
def printed (entries : List (List UInt8)) : List UInt8 := terminated 0x0a entries

/-- Whether nothing but blanks is seen of an entry. -/
def isBlankEntry (entry : List UInt8) : Bool := isBlankText (Text.Utf8.decodeLossy entry)

variable {name : String} {names : List String}

theorem bare_eq_self_iff : bare name = name ↔ hasBlankEdge name.toList = false := by
  rw [← Text.trim_eq_self_iff, bare, ← String.toList_inj, String.toList_ofList]

theorem encodeChar_lineFeed : Text.Utf8.encodeChar '\n' = [0x0a] := rfl

theorem decodeLossy_printed (entries : List (List UInt8)) :
    Text.Utf8.decodeLossy (printed entries) =
      terminated '\n' (entries.map Text.Utf8.decodeLossy) :=
  Text.Utf8.decodeLossy_terminated encodeChar_lineFeed entries

theorem decodeLossy_bytes (name : String) : Text.Utf8.decodeLossy (bytes name) = name.toList :=
  Text.Utf8.decodeLossy_encode _

/-! ## One name -/

theorem trimmed_printed (name : String) : trimmed (printed [bytes name]) = bare name := by
  rw [trimmed, decodeLossy_printed, List.map_singleton, decodeLossy_bytes, terminated,
    List.flatMap_singleton, Text.trim_concat (by decide), bare]

theorem readBranch_printed (name : String) : readBranch (printed [bytes name]) =
    if bare name = "HEAD" then .error "detached HEAD" else .ok (bare name) := by
  rw [readBranch, trimmed_printed]

/-- A name that is not read as it is printed has a blank at one of its ends. -/
theorem readBranch_eq_ok_iff : readBranch (printed [bytes name]) = .ok name ↔
    name ≠ "HEAD" ∧ hasBlankEdge name.toList = false := by
  rw [readBranch_printed, ← bare_eq_self_iff]
  constructor
  · intro h
    split at h
    · cases h
    · next hhead =>
      have hbare := Except.ok.inj h
      exact ⟨hbare ▸ hhead, hbare⟩
  · rintro ⟨hhead, hbare⟩
    rw [hbare, if_neg hhead]

/-! ## Several names -/

theorem IsRefName.not_mem (h : IsRefName name) {c : Char} (hc : isRefChar c = false) :
    c ∉ name.toList := fun hmem => by
  rw [h.allowed c hmem] at hc
  cases hc

theorem dropFinal_of_not_mem {α : Type} [DecidableEq α] {c : α} {l : List α} (h : c ∉ l) :
    Text.dropFinal c l = l := if_neg fun hlast => h (List.mem_of_getLast? hlast)

theorem ofList_ne_empty (l : List Char) : (String.ofList l != "") = !l.isEmpty := by
  rw [Bool.eq_iff_iff, bne_iff_ne, ne_eq, String.ofList_eq_empty_iff, Bool.not_eq_true',
    List.isEmpty_eq_false_iff]

theorem map_ofList_filter (ls : List (List Char)) :
    (ls.filter (!·.isEmpty)).map String.ofList = (ls.map String.ofList).filter (· != "") := by
  rw [List.filter_map]
  exact congrArg _ (List.filter_congr fun l _ => (ofList_ne_empty l).symm)

theorem lines_printed (h : ∀ n ∈ names, IsRefName n) :
    Text.lines (Text.Utf8.decodeLossy (printed (names.map bytes))) = names.map String.toList := by
  have hdecode : names.map (Text.Utf8.decodeLossy ∘ bytes) = names.map String.toList :=
    List.map_congr_left fun n _ => decodeLossy_bytes n
  rw [decodeLossy_printed, List.map_map, hdecode, Text.lines, Text.linesWith_terminated,
    List.map_map]
  · exact List.map_congr_left fun n hn => dropFinal_of_not_mem ((h n hn).not_mem (by decide))
  · intro l hl
    obtain ⟨n, hn, rfl⟩ := List.mem_map.1 hl
    exact (h n hn).not_mem (by decide)

theorem readBranches_printed (h : ∀ n ∈ names, IsRefName n) :
    readBranches (printed (names.map bytes)) = (names.map bare).filter (· != "") := by
  rw [readBranches, lines_printed h, map_ofList_filter, List.map_map, List.map_map]
  rfl

/-- If no name is lost and none is changed, none has a blank at its ends. -/
theorem readBranches_eq_iff (h : ∀ n ∈ names, IsRefName n) :
    readBranches (printed (names.map bytes)) = names ↔
      ∀ n ∈ names, hasBlankEdge n.toList = false := by
  rw [readBranches_printed h]
  constructor
  · intro heq n hn
    have hlength := congrArg List.length heq
    rw [← names.length_map (f := bare), List.length_filter_eq_length_iff] at hlength
    rw [List.filter_eq_self.2 hlength] at heq
    have hmap : names.map bare = names.map id := heq.trans names.map_id.symm
    exact bare_eq_self_iff.1 (List.map_inj_left.1 hmap n hn)
  · intro hedge
    have hmap : names.map bare = names :=
      (List.map_congr_left fun n hn => bare_eq_self_iff.2 (hedge n hn)).trans names.map_id
    rw [hmap]
    exact List.filter_eq_self.2 fun n hn => bne_iff_ne.2 (h n hn).nonempty

/-! ## Staged files -/

theorem isBlankText_terminated (ls : List (List Char)) :
    isBlankText (terminated '\n' ls) = ls.all isBlankText := by
  have hend : Text.isBlank '\n' = true := by decide
  rw [isBlankText, terminated, List.all_flatMap]
  exact List.all_congr rfl fun l => by simp [isBlankText, hend]

/-- Something is left of what is printed if something else than blanks is seen of an entry. -/
theorem trimmed_ne_empty (entries : List (List UInt8)) :
    (trimmed (printed entries) != "") = entries.any fun e => !isBlankEntry e := by
  rw [trimmed, decodeLossy_printed, ofList_ne_empty, Bool.eq_iff_iff, Bool.not_eq_true',
    List.isEmpty_eq_false_iff, ne_eq, Text.trim_eq_nil_iff, isBlankText_terminated, List.all_map,
    List.any_eq_not_all_not]
  simp [isBlankEntry, Function.comp_def]

/-! ## Calls -/

section

variable {α : Type} (git : Command → Except StartFailure Finished)

/-- The result of a program whose commands are answered in this way. -/
def resultOf (p : Commands α) : α := (p.run (fun c (u : Unit) => (git c, u)) ()).1

/-- `git` does as it is told by these arguments, and writes this. -/
def Writes (arguments : List String) (output : List UInt8) : Prop :=
  ∃ f, git (command arguments) = .ok f ∧ f.succeeded ∧ f.output = output

def Prints (arguments : List String) (entries : List (List UInt8)) : Prop :=
  Writes git arguments (printed entries)

variable {git} {arguments : List String} {output : List UInt8}

theorem resultOf_bind {β : Type} (p : Commands α) (k : α → Commands β) :
    resultOf git (p.bind k) = resultOf git (k (resultOf git p)) := by
  rw [resultOf, Program.run_bind]
  rfl

theorem resultOf_andThen (arguments : List String)
    (next : List UInt8 → Commands (Except String α)) : resultOf git (andThen arguments next) =
      (outputOf (command arguments) (git (command arguments))).bind (resultOf git ∘ next) := by
  rw [resultOf, andThen, Program.run]
  cases outputOf (command arguments) (git (command arguments)) with
  | error reason => rfl
  | ok output => rfl

theorem Writes.resultOf_andThen (h : Writes git arguments output)
    (next : List UInt8 → Commands (Except String α)) :
    resultOf git (andThen arguments next) = resultOf git (next output) := by
  obtain ⟨f, hf, hsucceeded, rfl⟩ := h
  rw [Git.resultOf_andThen, hf, outputOf, if_pos hsucceeded]
  rfl

theorem resultOf_currentBranch (h : Prints git ["rev-parse", "--abbrev-ref", "HEAD"] [bytes name]) :
    resultOf git currentBranch = readBranch (printed [bytes name]) := h.resultOf_andThen _

theorem resultOf_branches
    (h : Prints git ["for-each-ref", "--format=%(refname:short)", "refs/heads"]
      (names.map bytes)) :
    resultOf git branches = .ok (readBranches (printed (names.map bytes))) := h.resultOf_andThen _

variable {entries : List (List UInt8)}

theorem resultOf_hasStagedChanges (h : Prints git ["diff", "--cached", "--name-only"] entries) :
    resultOf git hasStagedChanges = .ok (entries.any fun e => !isBlankEntry e) := by
  rw [hasStagedChanges, Writes.resultOf_andThen h, trimmed_ne_empty]
  rfl

theorem resultOf_commit (hadd : Writes git ["add", "-A"] output)
    (h : Prints git ["diff", "--cached", "--name-only"] entries) (message : String) :
    resultOf git (commit message) = .ok .nothingToCommit ↔ ∀ e ∈ entries, isBlankEntry e := by
  rw [commit, hadd.resultOf_andThen, resultOf_bind, resultOf_hasStagedChanges h]
  cases hany : entries.any fun e => !isBlankEntry e with
  | false =>
    rw [List.any_eq_false] at hany
    exact ⟨fun _ e he => by simpa using hany e he, fun _ => rfl⟩
  | true =>
    obtain ⟨e, he, hblank⟩ := List.any_eq_true.1 hany
    refine ⟨fun hnothing => ?_, fun hall => absurd (hall e he) (by simpa using hblank)⟩
    -- Now the changes are committed, or the attempt fails.
    dsimp only at hnothing
    rw [resultOf_andThen] at hnothing
    cases houtput : outputOf (command ["commit", "-m", message])
      (git (command ["commit", "-m", message])) <;>
    · rw [houtput] at hnothing
      cases hnothing

end

theorem IsRefName.hasBlankEdge_eq_false (h : IsRefName name)
    (hascii : ∀ c ∈ name.toList, c.toNat < 0x80) : hasBlankEdge name.toList = false := by
  have hblank (c : Char) (hc : c ∈ name.toList) : Text.isBlank c = false := by
    have hlow := hascii c hc
    have hallowed := h.allowed c hc
    simp only [isRefChar, Bool.and_eq_true, decide_eq_true_eq] at hallowed
    simp only [Text.isBlank, Bool.or_eq_false_iff, Bool.and_eq_false_iff, beq_eq_false_iff_ne,
      decide_eq_false_iff_not]
    omega
  have hnone (o : Option Char) (ho : ∀ c, o = some c → c ∈ name.toList) :
      o.any Text.isBlank = false := by
    cases o with
    | none => rfl
    | some c => exact hblank c (ho c rfl)
  rw [hasBlankEdge, hnone _ fun c => List.mem_of_head?, hnone _ fun c => List.mem_of_getLast?]
  rfl

/-- How the answers of `git` are read. -/
structure Reads (git : Command → Except StartFailure Finished) : Prop where
  /-- The name of the branch is read as it is printed, unless a blank stands at one of its ends. -/
  current : ∀ name, Prints git ["rev-parse", "--abbrev-ref", "HEAD"] [bytes name] →
    (resultOf git currentBranch = .ok name ↔ name ≠ "HEAD" ∧ hasBlankEdge name.toList = false)
  /-- Names in ASCII have no such blanks. -/
  ascii : ∀ name, IsRefName name → (∀ c ∈ name.toList, c.toNat < 0x80) → name ≠ "HEAD" →
    Prints git ["rev-parse", "--abbrev-ref", "HEAD"] [bytes name] →
    resultOf git currentBranch = .ok name
  /-- What is `HEAD` but for the blanks at its ends is taken for a detached head. -/
  detached : ∀ name, Prints git ["rev-parse", "--abbrev-ref", "HEAD"] [bytes name] →
    ((∃ reason, resultOf git currentBranch = .error reason) ↔ bare name = "HEAD")
  listed : ∀ names, (∀ n ∈ names, IsRefName n) →
    Prints git ["for-each-ref", "--format=%(refname:short)", "refs/heads"] (names.map bytes) →
    (resultOf git branches = .ok names ↔ ∀ n ∈ names, hasBlankEdge n.toList = false)
  /-- Staged files are seen, unless their names are blank. -/
  staged : ∀ entries, Prints git ["diff", "--cached", "--name-only"] entries →
    resultOf git hasStagedChanges = .ok (entries.any fun e => !isBlankEntry e)
  committed : ∀ entries output message, Writes git ["add", "-A"] output →
    Prints git ["diff", "--cached", "--name-only"] entries →
    (resultOf git (commit message) = .ok .nothingToCommit ↔ ∀ e ∈ entries, isBlankEntry e)

theorem reads (git : Command → Except StartFailure Finished) : Reads git where
  current name h := by
    rw [resultOf_currentBranch h]
    exact readBranch_eq_ok_iff
  ascii name hname hascii hhead h := by
    rw [resultOf_currentBranch h]
    exact readBranch_eq_ok_iff.2 ⟨hhead, hname.hasBlankEdge_eq_false hascii⟩
  detached name h := by
    rw [resultOf_currentBranch h, readBranch_printed]
    split
    · next hhead => exact ⟨fun _ => hhead, fun _ => ⟨_, rfl⟩⟩
    · next hhead => exact ⟨fun ⟨_, hreason⟩ => (nomatch hreason), fun h => absurd h hhead⟩
  listed names hnames h := by
    rw [resultOf_branches h, Except.ok.injEq]
    exact readBranches_eq_iff hnames
  staged _ h := resultOf_hasStagedChanges h
  committed _ _ message hadd h := resultOf_commit hadd h message

/-- A `git` that does whatever it is told, and always writes the same. -/
def always (output : List UInt8) : Command → Except StartFailure Finished :=
  fun _ => .ok { output := output }

theorem writes_always (arguments : List String) (output : List UInt8) :
    Writes (always output) arguments output := ⟨_, rfl, rfl, rfl⟩

/-- A branch that starts with a no-break space is taken for another one, and so is one of several;
and a file that is called by a space is not seen. -/
theorem reads_outer_blanks :
    (IsRefName "\u00a0updates" ∧
      resultOf (always (printed [bytes "\u00a0updates"])) currentBranch ≠ .ok "\u00a0updates") ∧
    ((∀ n ∈ ["main", "main\u3000"], IsRefName n) ∧
      resultOf (always (printed (["main", "main\u3000"].map bytes))) branches ≠
        .ok ["main", "main\u3000"]) ∧
    resultOf (always (printed [bytes " "])) hasStagedChanges = .ok false ∧
    resultOf (always (printed [bytes " "])) (commit "Notes") = .ok .nothingToCommit := by
  have hupdates : IsRefName "\u00a0updates" := by decide
  have hmain : ∀ n ∈ ["main", "main\u3000"], IsRefName n := by decide
  have hblank : isBlankEntry (bytes " ") = true := by
    rw [isBlankEntry, decodeLossy_bytes]
    decide
  refine ⟨⟨hupdates, fun h => ?_⟩, ⟨hmain, fun h => ?_⟩, ?_, ?_⟩
  · have hedge := (((reads _).current _ (writes_always _ _)).1 h).2
    revert hedge
    decide
  · have hedge := ((reads _).listed _ hmain (writes_always _ _)).1 h "main\u3000" (by simp)
    revert hedge
    decide
  · rw [(reads _).staged [bytes " "] (writes_always _ _), List.any_cons, hblank]
    rfl
  · refine ((reads _).committed [bytes " "] _ _ (writes_always _ _) (writes_always _ _)).2 ?_
    exact List.forall_mem_singleton.2 hblank

end PublishDesk.Git
