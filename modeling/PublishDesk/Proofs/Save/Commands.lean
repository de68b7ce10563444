import Mathlib.Data.List.Basic
import PublishDesk.Command.Scripted
import PublishDesk.Proofs.Program.Transcript
import PublishDesk.Save.Workflow

/-!
# The commands of a save

A call to the repository is one run of `git` or up to three, and each of them can fail on its own.
`Workflow.itinerary` lists the commands of a save that nothing stops. `CommandRules` says how a save
goes along this list, however each run ends and whatever it writes: where it stops, what has
succeeded before a commit and a push, and which step the outcome blames, with which words.
-/

namespace PublishDesk

/-- A command that was run, and what came of it. -/
abbrev CommandRecord := Exchange Command fun _ => Except StartFailure Finished

namespace CommandRecord

/-- What the command wrote, if it started and ended with success. -/
def output? (r : CommandRecord) : Option (List UInt8) :=
  match r.2 with
  | .ok f => if f.succeeded then some f.output else none
  | .error _ => none

def succeeded (r : CommandRecord) : Bool := r.output?.isSome

theorem output?_eq (r : CommandRecord) : r.output? = (Git.outputOf r.1 r.2).toOption := by
  obtain ⟨c, e | f⟩ := r
  · rfl
  · simp only [output?, Git.outputOf]
    split <;> rfl

end CommandRecord

namespace Git

def lookCommand : Command := command ["rev-parse", "--abbrev-ref", "HEAD"]

def listCommand : Command := command ["for-each-ref", "--format=%(refname:short)", "refs/heads"]

/-- The command to get to a branch that exists, or does not exist yet. -/
def moveCommand (branch : String) (listed : Bool) : Command :=
  command (if listed then ["checkout", branch] else ["checkout", "-b", branch])

def stageCommand : Command := command ["add", "-A"]

def compareCommand : Command := command ["diff", "--cached", "--name-only"]

def commitCommand (message : String) : Command := command ["commit", "-m", message]

def pushCommand (remote branch : String) : Command :=
  command ["push", "--set-upstream", remote, branch]

end Git

namespace Workflow

open Git

/-- The commands that get to the target branch, if it is not checked out. -/
def detour (target : String) (there listed : Bool) : List Command :=
  if there then [] else [listCommand, moveCommand target listed, lookCommand]

/-- The commands from the first look up to where the changes are staged and compared. -/
def approach (target : String) (there listed : Bool) : List Command :=
  lookCommand :: detour target there listed ++ [stageCommand, compareCommand]

/-- The commands of a save that nothing stops. -/
def itinerary (remote target message : String) (there listed : Bool) : List Command :=
  approach target there listed ++ [commitCommand message, pushCommand remote target]

/-- What a save fails with if a command fails. -/
def blame (target : String) (c : Command) (reason : String) : SaveFailure :=
  match c.arguments.head? with
  | some "push" => .push target reason
  | some "add" | some "diff" | some "commit" => .commit reason
  | _ => .branch target reason

/-- How a save ends on what a successful command wrote, if it does not go on. -/
def ending (target : String) (c : Command) (output : List UInt8) : Option SaveOutcome :=
  match c.arguments.head? with
  | some "rev-parse" =>
    match readBranch output with
    | .error reason => some (.failed (.branch target reason))
    | .ok name =>
      if name = target then none
      else some (.failed (.branch target ("still on '" ++ name ++ "' after checkout")))
  | some "diff" => if trimmed output = "" then some (.failed .nothingToCommit) else none
  | some "push" => some .saved
  | _ => none

/-- How a save ends after a command, if it does not go on. -/
def verdict (target : String) (r : CommandRecord) : Option SaveOutcome :=
  match outputOf r.1 r.2 with
  | .error reason => some (.failed (blame target r.1 reason))
  | .ok output => ending target r.1 output

/-- Whether a save finds its target branch checked out when it looks first. -/
def findsTarget (target : String) (runs : List CommandRecord) : Bool :=
  (runs.head?.bind CommandRecord.output?).any fun output => trimmed output == target

/-- Whether the target branch is among the branches that the first command lists. -/
def listsTarget (target : String) (runs : List CommandRecord) : Bool :=
  (runs.head?.bind CommandRecord.output?).any fun output => (readBranches output).contains target

/-- How the commands of a save go along its itinerary, with the outcome of the save. -/
structure Along (remote target message : String) (runs : List CommandRecord)
    (outcome : SaveOutcome) : Prop where
  planned : runs.map (·.1) <+:
    itinerary remote target message (findsTarget target runs) (listsTarget target runs.tail)
  /-- A save goes on after its first look, whatever came of it, and after another command only if
  this command lets it. -/
  goes_on : ∀ pre r post, runs = pre ++ r :: post → pre ≠ [] → post ≠ [] → verdict target r = none
  /-- A save ends with what its last command gives. -/
  ended : ∃ pre r, runs = pre ++ [r] ∧ pre ≠ [] ∧ verdict target r = some outcome

/-- What a save keeps to while it goes along its itinerary. -/
structure CommandRules (remote target message : String) (runs : List CommandRecord)
    (outcome : SaveOutcome) : Prop extends Along remote target message runs outcome where
  /-- Nothing runs after a command that failed or did not start, but for the first look. -/
  stops : ∀ pre r post, runs = pre ++ r :: post → ¬ r.succeeded → post ≠ [] → pre = []
  commit_after : ∀ pre r post, runs = pre ++ r :: post → r.1 = commitCommand message →
    (∃ a ∈ pre, a.1 = stageCommand ∧ a.succeeded) ∧
    ∃ d ∈ pre, d.1 = compareCommand ∧ ∃ output, d.output? = some output ∧ trimmed output ≠ ""
  push_after : ∀ pre r post, runs = pre ++ r :: post → r.1 = pushCommand remote target →
    ∃ c ∈ pre, c.1 = commitCommand message ∧ c.succeeded
  saved_iff : outcome = .saved ↔ ∃ r ∈ runs, r.1 = pushCommand remote target ∧ r.succeeded
  /-- A save that ends on a command that exited without success blames the step of this command,
  with the command and what it wrote on its errors. -/
  unsuccessful : ∀ pre c f, runs = pre ++ [⟨c, .ok f⟩] → ¬ f.succeeded →
    outcome = .failed (blame target c (c.line ++ " failed: " ++ trimmed f.errors))
  unstarted : ∀ pre c e, runs = pre ++ [⟨c, .error e⟩] →
    outcome = .failed (blame target c ("spawn " ++ c.line ++ ": " ++ e.message))

variable {remote target message : String} {service : ReviewService} {next : Workflow SaveOutcome}
  {plan : List Command} {runs : List CommandRecord} {o : SaveOutcome}

/-! ## Along a plan -/

/-- The commands are those of the plan, in order, up to the first one that ends the save. The first
look of a save is not among them, since no answer to it ends the save. -/
inductive Follows (target : String) : List Command → List CommandRecord → SaveOutcome → Prop
  | last {c : Command} {a : Except StartFailure Finished} {plan : List Command} {o : SaveOutcome} :
    verdict target ⟨c, a⟩ = some o → Follows target (c :: plan) [⟨c, a⟩] o
  | next {c : Command} {a : Except StartFailure Finished} {plan : List Command}
    {runs : List CommandRecord} {o : SaveOutcome} :
    verdict target ⟨c, a⟩ = none → Follows target plan runs o →
      Follows target (c :: plan) (⟨c, a⟩ :: runs) o

theorem Follows.isPrefix (h : Follows target plan runs o) : runs.map (·.1) <+: plan := by
  induction h with
  | last _ => exact ⟨_, rfl⟩
  | next _ _ ih => exact (List.prefix_cons_inj _).2 ih

theorem Follows.ended (h : Follows target plan runs o) :
    ∃ pre r, runs = pre ++ [r] ∧ verdict target r = some o := by
  induction h with
  | last hv => exact ⟨[], _, rfl, hv⟩
  | next _ _ ih =>
    obtain ⟨pre, r, rfl, hv⟩ := ih
    exact ⟨_ :: pre, r, rfl, hv⟩

theorem Follows.goes_on (h : Follows target plan runs o) {pre post : List CommandRecord}
    {r : CommandRecord} (hs : runs = pre ++ r :: post) (hpost : post ≠ []) :
    verdict target r = none := by
  induction h generalizing pre with
  | last _ =>
    obtain ⟨-, hnil⟩ | ⟨l, -, hnil⟩ := List.append_eq_cons_iff.1 hs.symm
    · exact absurd (List.cons.inj hnil).2 hpost
    · simp at hnil
  | next hv _ ih =>
    obtain ⟨-, hcons⟩ | ⟨l, -, hcons⟩ := List.append_eq_cons_iff.1 hs.symm
    · exact (List.cons.inj hcons).1 ▸ hv
    · exact ih hcons

/-- One command of a call: if it fails the save has ended, and if not it goes on or ends on what the
command wrote. -/
theorem follows_andThen {α : Type} {arguments : List String}
    {next : List UInt8 → Commands (Except String α)} {k : Except String α → Commands SaveOutcome}
    (h : ((andThen arguments next).bind k).Transcript runs o)
    (hfails : ∀ reason, k (.error reason) =
      .done (.failed (blame target (command arguments) reason)))
    (hwrites : ∀ output l, runs.head?.bind CommandRecord.output? = some output →
      ((next output).bind k).Transcript l o →
      match ending target (command arguments) output with
      | some o' => l = [] ∧ o = o'
      | none => Follows target plan l o) :
    Follows target (command arguments :: plan) runs o := by
  rw [andThen, Program.bind, Program.transcript_ask_iff] at h
  obtain ⟨a, l, rfl, h⟩ := h
  cases hout : outputOf (command arguments) a with
  | error reason =>
    rw [hout, Program.done_bind, hfails, Program.transcript_done_iff] at h
    obtain ⟨rfl, rfl⟩ := h
    exact .last (by rw [verdict, hout])
  | ok output =>
    rw [hout] at h
    have hnext := hwrites output l (by simp [CommandRecord.output?_eq, hout, Except.toOption]) h
    have hv : verdict target ⟨command arguments, a⟩ = ending target (command arguments) output := by
      rw [verdict, hout]
    cases hend : ending target (command arguments) output with
    | some o' =>
      rw [hend] at hnext
      obtain ⟨rfl, rfl⟩ := hnext
      exact .last (hv.trans hend)
    | none =>
      rw [hend] at hnext
      exact .next (hv.trans hend) hnext

/-! ## The calls of a save -/

theorem follows_push (h : ((push target).expand (commands remote service)).Transcript runs o) :
    Follows target [pushCommand remote target] runs o :=
  follows_andThen h (fun _ => rfl) fun _ _ _ hl => Program.transcript_done_iff.1 hl

theorem follows_commit
    (h : ((commit target message).expand (commands remote service)).Transcript runs o) :
    Follows target [stageCommand, compareCommand, commitCommand message, pushCommand remote target]
      runs o := by
  refine follows_andThen h (fun _ => rfl) fun _ l _ hl => ?_
  rw [Program.bind_assoc] at hl
  refine follows_andThen hl (fun _ => rfl) fun output l _ hl => ?_
  by_cases hblank : trimmed output = ""
  · have hend : ending target compareCommand output = some (.failed .nothingToCommit) :=
      if_pos hblank
    have hstaged : (trimmed output != "") = false := by simp [hblank]
    rw [Program.done_bind, hstaged] at hl
    exact hend ▸ Program.transcript_done_iff.1 hl
  · have hend : ending target compareCommand output = none := if_neg hblank
    have hstaged : (trimmed output != "") = true := by simp [hblank]
    rw [Program.done_bind, hstaged] at hl
    exact hend ▸ follows_andThen hl (fun _ => rfl) fun _ _ _ hl => follows_push hl

theorem follows_confirm
    (hnext : ∀ runs, (next.expand (commands remote service)).Transcript runs o →
      Follows target plan runs o)
    (h : ((confirm target next).expand (commands remote service)).Transcript runs o) :
    Follows target (lookCommand :: plan) runs o := by
  refine follows_andThen h (fun _ => rfl) fun output l _ hl => ?_
  have hend : ending target lookCommand output =
      match readBranch output with
      | .error reason => some (.failed (.branch target reason))
      | .ok name =>
        if name = target then none
        else some (.failed (.branch target ("still on '" ++ name ++ "' after checkout"))) := rfl
  rw [Program.done_bind] at hl
  cases hname : readBranch output with
  | error reason =>
    rw [hname] at hl hend
    exact hend ▸ Program.transcript_done_iff.1 hl
  | ok name =>
    rw [hname] at hl hend
    by_cases hthere : name = target
    · have hgoes : ending target lookCommand output = none := hend.trans (if_pos hthere)
      simp only [if_pos hthere] at hl
      exact hgoes ▸ hnext l hl
    · have hstill := hend.trans (if_neg hthere)
      simp only [if_neg hthere] at hl
      exact hstill ▸ Program.transcript_done_iff.1 hl

/-- Whether the target branch is listed decides how a save gets there. -/
theorem follows_switch
    (hnext : ∀ runs, (next.expand (commands remote service)).Transcript runs o →
      Follows target plan runs o)
    (h : ((switch target next).expand (commands remote service)).Transcript runs o) :
    Follows target (listCommand :: moveCommand target (listsTarget target runs) ::
      lookCommand :: plan) runs o := by
  refine follows_andThen h (fun _ => rfl) fun output l hout hl => ?_
  have hlists : listsTarget target runs = (readBranches output).contains target := by
    rw [listsTarget, hout, Option.any_some]
  rw [hlists]
  cases hmem : (readBranches output).contains target with
  | true =>
    simp only [Program.done_bind, hmem, if_true] at hl
    exact follows_andThen hl (fun _ => rfl) fun _ _ _ hl => follows_confirm hnext hl
  | false =>
    simp only [Program.done_bind, hmem] at hl
    exact follows_andThen hl (fun _ => rfl) fun _ _ _ hl => follows_confirm hnext hl

theorem readBranch_eq_target_iff (htarget : target ≠ "HEAD") {output : List UInt8} :
    readBranch output = .ok target ↔ trimmed output = target := by
  unfold readBranch
  split
  · next hhead => exact ⟨nofun, fun h => absurd (h.symm.trans hhead) htarget⟩
  · exact ⟨Except.ok.inj, congrArg Except.ok⟩

/-- What a save does after its first look goes along the rest of the itinerary. -/
theorem follows_looked {first : Except String String}
    (h : Program.Transcript
      (Program.expand (commands remote service) <|
        match first with
        | .ok name =>
          if name = target then commit target message else switch target (commit target message)
        | .error _ => switch target (commit target message)) runs o) :
    Follows target (itinerary remote target message (decide (first = .ok target))
      (listsTarget target runs)).tail runs o := by
  by_cases hfirst : first = .ok target
  · subst hfirst
    rw [decide_eq_true rfl]
    simp only [if_pos] at h
    exact follows_commit h
  · rw [decide_eq_false hfirst]
    have hswitch : ((switch target (commit target message)).expand
        (commands remote service)).Transcript runs o := by
      cases first with
      | error _ => exact h
      | ok name => simpa only [if_neg fun hname => hfirst (congrArg Except.ok hname)] using h
    exact follows_switch (fun _ => follows_commit) hswitch

theorem transcript_look {α : Type} {k : Except String String → Commands α} {a : α}
    (h : (currentBranch.bind k).Transcript runs a) :
    ∃ x l, runs = ⟨lookCommand, x⟩ :: l ∧
      (k ((outputOf lookCommand x).bind readBranch)).Transcript l a := by
  rw [currentBranch, andThen, Program.bind, Program.transcript_ask_iff] at h
  obtain ⟨x, l, rfl, h⟩ := h
  refine ⟨x, l, rfl, ?_⟩
  rw [lookCommand]
  cases hout : outputOf (command ["rev-parse", "--abbrev-ref", "HEAD"]) x <;> rwa [hout] at h

theorem findsTarget_cons (htarget : target ≠ "HEAD") {x : Except StartFailure Finished} :
    findsTarget target (⟨lookCommand, x⟩ :: runs) =
      decide ((outputOf lookCommand x).bind readBranch = .ok target) := by
  rw [findsTarget, List.head?_cons, Option.bind_some, CommandRecord.output?_eq]
  cases hout : outputOf lookCommand x with
  | error reason => rfl
  | ok output =>
    rw [Except.bind, Bool.eq_iff_iff, decide_eq_true_iff, readBranch_eq_target_iff htarget]
    exact beq_iff_eq

theorem follows_publish (htarget : target ≠ "HEAD")
    (h : ((publish target message).expand (commands remote service)).Transcript runs o) :
    ∃ x l, runs = ⟨lookCommand, x⟩ :: l ∧
      Follows target (itinerary remote target message (findsTarget target runs)
        (listsTarget target l)).tail l o := by
  obtain ⟨x, l, rfl, hl⟩ := transcript_look h
  exact ⟨x, l, rfl, findsTarget_cons htarget ▸ follows_looked hl⟩

/-! ## The rules -/

theorem expand_save (hmessage : ¬ isBlankMessage message) :
    (save target message).expand (commands remote service) =
      (publish target message).expand (commands remote service) := by
  rw [save, if_neg hmessage, Program.expand, commands, Program.done_bind, Program.expand_bind]
  exact Program.bind_done _

theorem along_of_transcript (htarget : target ≠ "HEAD") (hmessage : ¬ isBlankMessage message)
    (h : ((save target message).expand (commands remote service)).Transcript runs o) :
    Along remote target message runs o := by
  rw [expand_save hmessage] at h
  obtain ⟨x, l, rfl, hl⟩ := follows_publish htarget h
  refine ⟨(List.prefix_cons_inj lookCommand).2 hl.isPrefix, fun pre r post hs hpre hpost => ?_, ?_⟩
  · obtain ⟨r', pre, rfl⟩ := List.exists_cons_of_ne_nil hpre
    exact hl.goes_on (List.cons.inj hs).2 hpost
  · obtain ⟨pre, r, rfl, hv⟩ := hl.ended
    exact ⟨⟨lookCommand, x⟩ :: pre, r, rfl, nofun, hv⟩

theorem verdict_of_output {r : CommandRecord} {output : List UInt8} (h : r.output? = some output) :
    verdict target r = ending target r.1 output := by
  rw [CommandRecord.output?_eq] at h
  unfold verdict
  cases hout : outputOf r.1 r.2 with
  | error reason =>
    rw [hout] at h
    cases h
  | ok output' =>
    rw [hout] at h
    rw [Option.some.inj h]

theorem output_of_verdict {r : CommandRecord} (h : verdict target r = none) :
    ∃ output, r.output? = some output ∧ ending target r.1 output = none := by
  unfold verdict at h
  rw [CommandRecord.output?_eq]
  cases hout : outputOf r.1 r.2 with
  | error reason =>
    rw [hout] at h
    cases h
  | ok output =>
    rw [hout] at h
    exact ⟨output, rfl, h⟩

/-- The place of a command that stands on a plan once. -/
theorem eq_of_append_cons_prefix {α : Type} {l l' m m' : List α} {a : α}
    (h : l ++ a :: l' <+: m ++ a :: m') (hm : a ∉ m) (hm' : a ∉ m') : l = m := by
  obtain ⟨t, ht⟩ := h
  rw [List.append_assoc, List.cons_append] at ht
  exact ((List.append_cons_inj_of_notMem hm hm').1 ht.symm).1.symm

/-- The first words of the commands before the commit. -/
theorem word_of_mem_approach {there listed : Bool} {c : Command}
    (h : c ∈ approach target there listed) :
    c.arguments.head? ∈ ["rev-parse", "for-each-ref", "checkout", "add", "diff"].map some := by
  have hwords : ∀ c ∈ approach target there listed, c.arguments.head? ∈
      ["rev-parse", "for-each-ref", "checkout", "add", "diff"].map some := by
    cases there <;> cases listed <;>
      simp [approach, detour, lookCommand, listCommand, moveCommand, stageCommand, compareCommand,
        command]
  exact hwords c h

/-- Only a push that succeeds saves. -/
theorem of_verdict_saved {r : CommandRecord} (h : verdict target r = some .saved) :
    r.succeeded ∧ r.1.arguments.head? = some "push" := by
  rw [CommandRecord.succeeded, CommandRecord.output?_eq]
  unfold verdict at h
  split at h
  · cases h
  · next output hout =>
    refine ⟨by rw [hout]; rfl, ?_⟩
    unfold ending at h
    split at h
    · split at h
      · cases h
      · split at h <;> cases h
    · split at h <;> cases h
    · next hword => exact hword
    · cases h

namespace Along

variable {pre post : List CommandRecord} {r : CommandRecord}

theorem head_eq (h : Along remote target message runs o) (hs : runs = r :: post) :
    r.1 = lookCommand := by
  obtain ⟨t, ht⟩ := h.planned
  subst hs
  exact (List.cons.inj ht).1

/-- The commands that a save goes on after have succeeded, the first look perhaps excepted. -/
theorem goes_on_of_mem (h : Along remote target message runs o) (hs : runs = pre ++ r :: post)
    {a : CommandRecord} (ha : a ∈ pre) (hlook : a.1 ≠ lookCommand) :
    ∃ output, a.output? = some output ∧ ending target a.1 output = none := by
  obtain ⟨p, q, rfl⟩ := List.append_of_mem ha
  rw [List.append_assoc, List.cons_append] at hs
  refine output_of_verdict (h.goes_on p a (q ++ r :: post) hs ?_ (by simp))
  rintro rfl
  exact hlook (h.head_eq hs)

theorem before_commit (h : Along remote target message runs o) (hs : runs = pre ++ r :: post)
    (hr : r.1 = commitCommand message) :
    ∃ there listed, pre.map (·.1) = approach target there listed := by
  have hplan := h.planned
  rw [congrArg (List.map (·.1)) hs, List.map_append, List.map_cons, hr, itinerary] at hplan
  refine ⟨_, _, eq_of_append_cons_prefix hplan (fun hm => ?_) ?_⟩
  · simpa [commitCommand, command] using word_of_mem_approach hm
  · simp [commitCommand, pushCommand, command]

theorem before_push (h : Along remote target message runs o) (hs : runs = pre ++ r :: post)
    (hr : r.1 = pushCommand remote target) :
    ∃ there listed, pre.map (·.1) = approach target there listed ++ [commitCommand message] := by
  have hplan := h.planned
  rw [congrArg (List.map (·.1)) hs, List.map_append, List.map_cons, hr, itinerary,
    List.append_cons (approach _ _ _)] at hplan
  refine ⟨_, _, eq_of_append_cons_prefix hplan (fun hm => ?_) List.not_mem_nil⟩
  obtain hm | hm := List.mem_append.1 hm
  · simpa [pushCommand, command] using word_of_mem_approach hm
  · simp [commitCommand, pushCommand, command] at hm

/-- Nothing but the push of the target branch pushes. -/
theorem eq_pushCommand (h : Along remote target message runs o) (hr : r ∈ runs)
    (hword : r.1.arguments.head? = some "push") : r.1 = pushCommand remote target := by
  have hmem := h.planned.subset (List.mem_map_of_mem hr)
  rw [itinerary, List.mem_append] at hmem
  obtain hmem | hmem := hmem
  · simpa [hword] using word_of_mem_approach hmem
  · obtain hcommit | hpush := List.mem_pair.1 hmem
    · rw [hcommit] at hword
      simp [commitCommand, command] at hword
    · exact hpush

theorem stops (h : Along remote target message runs o) (hs : runs = pre ++ r :: post)
    (hr : ¬ r.succeeded) (hpost : post ≠ []) : pre = [] := by
  by_contra hpre
  obtain ⟨output, hout, -⟩ := output_of_verdict (h.goes_on pre r post hs hpre hpost)
  exact hr (Option.isSome_of_mem hout)

theorem commit_after (h : Along remote target message runs o) (hs : runs = pre ++ r :: post)
    (hr : r.1 = commitCommand message) :
    (∃ a ∈ pre, a.1 = stageCommand ∧ a.succeeded) ∧
    ∃ d ∈ pre, d.1 = compareCommand ∧ ∃ output, d.output? = some output ∧ trimmed output ≠ "" := by
  obtain ⟨there, listed, hpre⟩ := h.before_commit hs hr
  have hmem {c : Command} (hc : c ∈ [stageCommand, compareCommand]) : ∃ a ∈ pre, a.1 = c :=
    List.mem_map.1 (hpre ▸ List.mem_append_right _ hc)
  constructor
  · obtain ⟨a, ha, hstage⟩ := hmem (c := stageCommand) List.mem_cons_self
    obtain ⟨output, hout, -⟩ := h.goes_on_of_mem hs ha (hstage ▸ nofun)
    exact ⟨a, ha, hstage, Option.isSome_of_mem hout⟩
  · obtain ⟨d, hd, hcompare⟩ := hmem (c := compareCommand) (by simp)
    obtain ⟨output, hout, hend⟩ := h.goes_on_of_mem hs hd (hcompare ▸ nofun)
    refine ⟨d, hd, hcompare, output, hout, fun hblank => ?_⟩
    rw [hcompare] at hend
    cases hend.symm.trans (if_pos hblank)

theorem push_after (h : Along remote target message runs o) (hs : runs = pre ++ r :: post)
    (hr : r.1 = pushCommand remote target) :
    ∃ c ∈ pre, c.1 = commitCommand message ∧ c.succeeded := by
  obtain ⟨there, listed, hpre⟩ := h.before_push hs hr
  obtain ⟨c, hc, hcommit⟩ : ∃ c ∈ pre, c.1 = commitCommand message :=
    List.mem_map.1 (hpre ▸ List.mem_append_right _ List.mem_cons_self)
  have hlook : c.1 ≠ lookCommand := by simp [hcommit, commitCommand, lookCommand, command]
  obtain ⟨output, hout, -⟩ := h.goes_on_of_mem hs hc hlook
  exact ⟨c, hc, hcommit, Option.isSome_of_mem hout⟩

/-- The last command decides the outcome. -/
theorem verdict_last (h : Along remote target message runs o) (hs : runs = pre ++ [r]) :
    verdict target r = some o := by
  obtain ⟨pre', last, hlast, -, hv⟩ := h.ended
  obtain ⟨-, hsame⟩ := List.append_inj' (hlast.symm.trans hs) rfl
  exact List.singleton_inj.1 hsame ▸ hv

theorem unsuccessful (h : Along remote target message runs o) {c : Command} {f : Finished}
    (hs : runs = pre ++ [⟨c, .ok f⟩]) (hf : ¬ f.succeeded) :
    o = .failed (blame target c (c.line ++ " failed: " ++ trimmed f.errors)) := by
  have hv := h.verdict_last hs
  rw [verdict, outputOf, if_neg hf] at hv
  exact (Option.some.inj hv).symm

theorem unstarted (h : Along remote target message runs o) {c : Command} {e : StartFailure}
    (hs : runs = pre ++ [⟨c, .error e⟩]) :
    o = .failed (blame target c ("spawn " ++ c.line ++ ": " ++ e.message)) :=
  (Option.some.inj (h.verdict_last hs)).symm

theorem saved_iff (h : Along remote target message runs o) :
    o = .saved ↔ ∃ r ∈ runs, r.1 = pushCommand remote target ∧ r.succeeded := by
  constructor
  · rintro rfl
    obtain ⟨pre, last, hlast, -, hv⟩ := h.ended
    obtain ⟨hsucceeded, hword⟩ := of_verdict_saved hv
    have hmem : last ∈ runs := hlast ▸ List.mem_append_right _ List.mem_cons_self
    exact ⟨last, hmem, h.eq_pushCommand hmem hword, hsucceeded⟩
  · rintro ⟨r, hr, hpush, hsucceeded⟩
    obtain ⟨output, hout⟩ := Option.isSome_iff_exists.1 hsucceeded
    have hsaves : verdict target r = some .saved := by
      rw [verdict_of_output hout, hpush]
      rfl
    obtain ⟨p, q, hs⟩ := List.append_of_mem hr
    have hp : p ≠ [] := by
      rintro rfl
      have hlook := hpush.symm.trans (h.head_eq hs)
      simp [pushCommand, lookCommand, command] at hlook
    have hq : q = [] := by
      by_contra hq
      cases hsaves.symm.trans (h.goes_on p r q hs hp hq)
    exact Option.some.inj ((h.verdict_last (hq ▸ hs)).symm.trans hsaves)

end Along

theorem Along.rules (h : Along remote target message runs o) :
    CommandRules remote target message runs o where
  toAlong := h
  stops _ _ _ hs hr hpost := h.stops hs hr hpost
  commit_after _ _ _ hs hr := h.commit_after hs hr
  push_after _ _ _ hs hr := h.push_after hs hr
  saved_iff := h.saved_iff
  unsuccessful _ _ _ hs hf := h.unsuccessful hs hf
  unstarted _ _ _ hs := h.unstarted hs

/-- Every save along the commands of a repository keeps to its itinerary, whatever these commands
do. -/
theorem command_rules {σ : Type} (git : Command → σ → Except StartFailure Finished × σ) (s : σ)
    (service : ReviewService) (remote : String) {target message : String}
    (htarget : target ≠ "HEAD") (hmessage : ¬ isBlankMessage message) :
    CommandRules remote target message
      (((save target message).expand (commands remote service)).transcript git s)
      (((save target message).expand (commands remote service)).run git s).1 :=
  (along_of_transcript htarget hmessage (Program.transcript_run git _ s)).rules

/-- How the push ends that the remote rejects. -/
def rejection : Finished where
  errors := Text.Utf8.encode "rejected\n".toList
  status := .code 1

/-- What the commands of a save give where the remote rejects the push. -/
def rejectedPush : Script where
  results := [{ output := Text.Utf8.encode "updates\n".toList }, {},
    { output := Text.Utf8.encode "page.md\n".toList }, {}, rejection]

/-- A push that the remote rejects comes after the commit, and is what the save blames, with what
the push wrote. -/
theorem command_rules_of_rejected :
    let p := (save "updates" "Notes").expand (commands "origin" .none)
    ∃ pre, p.transcript Script.answer rejectedPush =
        pre ++ [⟨pushCommand "origin" "updates", .ok rejection⟩] ∧
      (∃ r ∈ pre, r.1 = commitCommand "Notes" ∧ CommandRecord.succeeded r) ∧
      (p.run Script.answer rejectedPush).1 = .failed (.push "updates"
        "git push --set-upstream origin updates failed: rejected") := by
  intro p
  have H := command_rules Script.answer rejectedPush .none "origin"
    (by decide : "updates" ≠ "HEAD") (by decide : ¬ isBlankMessage "Notes")
  have hruns : p.transcript Script.answer rejectedPush =
      (p.transcript Script.answer rejectedPush).take 4 ++
        [⟨pushCommand "origin" "updates", .ok rejection⟩] := by
    decide +kernel
  refine ⟨_, hruns, H.push_after _ _ [] hruns rfl, ?_⟩
  rw [H.unsuccessful _ _ _ hruns (by decide)]
  decide +kernel

end Workflow
end PublishDesk
