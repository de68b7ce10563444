import PublishDesk.Proofs.Program.Transcript
import PublishDesk.Save.Workflow

/-!
# The calls of a save

Which calls a save makes is decided by their answers alone. `Workflow.Published` lists the sequences
of calls that a save can make while it holds the working tree, each with its outcome, and
`Workflow.transcript_publish_iff` says that the list is complete and holds nothing else. A sequence
has two parts: the calls that put the target branch in place (`Preparation`), and, unless these
fail, the calls from the commit on (`Committed`).
-/

namespace PublishDesk

/-- A call to a repository and its answer. -/
abbrev CallRecord := (c : RepositoryCall) × c.Answer

namespace CallRecord

def exchange (r : CallRecord) : Exchange TreeStep TreeStep.Answer := ⟨.repository r.1, r.2⟩

/-- The call to check a branch out, or to create it if it is not among the names. -/
def switch (branch : String) (names : List String) (answer : Except String Unit) : CallRecord :=
  if names.contains branch then ⟨.checkout branch, answer⟩ else ⟨.checkoutNew branch, answer⟩

end CallRecord

namespace Workflow

/-- The calls that put the target branch in place, with the reason if they fail to. -/
inductive Preparation (target : String) : List CallRecord → (failure : Option String) → Prop
  | there : Preparation target [⟨.currentBranch, .ok target⟩] none
  | moved {first : Except String String} (names : List String) (h : first ≠ .ok target) :
    Preparation target [⟨.currentBranch, first⟩, ⟨.branches, .ok names⟩,
      .switch target names (.ok ()), ⟨.currentBranch, .ok target⟩] none
  | unlisted {first : Except String String} (reason : String) (h : first ≠ .ok target) :
    Preparation target [⟨.currentBranch, first⟩, ⟨.branches, .error reason⟩] (some reason)
  | unmoved {first : Except String String} (names : List String) (reason : String)
    (h : first ≠ .ok target) :
    Preparation target [⟨.currentBranch, first⟩, ⟨.branches, .ok names⟩,
      .switch target names (.error reason)] (some reason)
  | unreadable {first : Except String String} (names : List String) (reason : String)
    (h : first ≠ .ok target) :
    Preparation target [⟨.currentBranch, first⟩, ⟨.branches, .ok names⟩,
      .switch target names (.ok ()), ⟨.currentBranch, .error reason⟩] (some reason)
  | elsewhere {first : Except String String} (names : List String) {name : String}
    (h : first ≠ .ok target) (h' : name ≠ target) :
    Preparation target [⟨.currentBranch, first⟩, ⟨.branches, .ok names⟩,
      .switch target names (.ok ()), ⟨.currentBranch, .ok name⟩]
      (some ("still on '" ++ name ++ "' after checkout"))

/-- The calls from the commit on, and how the save ends with them. -/
inductive Committed (target message : String) : List CallRecord → SaveOutcome → Prop
  | refused (reason : String) :
    Committed target message [⟨.commit message, .error reason⟩] (.failed (.commit reason))
  | clean :
    Committed target message [⟨.commit message, .ok .nothingToCommit⟩] (.failed .nothingToCommit)
  | unpushed (reason : String) :
    Committed target message
      [⟨.commit message, .ok .committed⟩, ⟨.push target true, .error reason⟩]
      (.failed (.push target reason))
  | pushed :
    Committed target message [⟨.commit message, .ok .committed⟩, ⟨.push target true, .ok ()⟩] .saved

/-- The calls of a save that holds the working tree, and how it ends. -/
inductive Published (target message : String) : List CallRecord → SaveOutcome → Prop
  | prepared {l l' : List CallRecord} {o : SaveOutcome} :
    Preparation target l none → Committed target message l' o → Published target message (l ++ l') o
  | abandoned {l : List CallRecord} {reason : String} :
    Preparation target l (some reason) →
      Published target message l (.failed (.branch target reason))

/-! ## Completeness -/

variable {target message : String} {l : List (Exchange TreeStep TreeStep.Answer)}
  {o : SaveOutcome} {next : Workflow SaveOutcome}

theorem transcript_push_iff :
    (push target).Transcript l o ↔ ∃ a : Except String Unit,
      l = [⟨.repository (.push target true), a⟩] ∧
        o = match a with
          | .ok () => .saved
          | .error reason => .failed (.push target reason) := by
  simp only [push, Program.transcript_ask_iff]
  constructor
  · rintro ⟨_ | _, l', rfl, h⟩ <;>
    · obtain ⟨rfl, rfl⟩ := Program.transcript_done_iff.1 h
      exact ⟨_, rfl, rfl⟩
  · rintro ⟨_ | _, rfl, rfl⟩ <;> exact ⟨_, _, rfl, .done⟩

theorem transcript_commit_iff :
    (commit target message).Transcript l o ↔
      ∃ calls, l = calls.map CallRecord.exchange ∧ Committed target message calls o := by
  simp only [commit, Program.transcript_ask_iff]
  constructor
  · rintro ⟨reason | (_ | _), l', rfl, h⟩
    · obtain ⟨rfl, rfl⟩ := Program.transcript_done_iff.1 h
      exact ⟨_, rfl, .refused reason⟩
    · obtain ⟨reason | ⟨⟩, rfl, rfl⟩ := transcript_push_iff.1 h
      · exact ⟨_, rfl, .unpushed reason⟩
      · exact ⟨_, rfl, .pushed⟩
    · obtain ⟨rfl, rfl⟩ := Program.transcript_done_iff.1 h
      exact ⟨_, rfl, .clean⟩
  · rintro ⟨calls, rfl, h⟩
    cases h with
    | refused reason => exact ⟨.error reason, [], rfl, .done⟩
    | clean => exact ⟨.ok .nothingToCommit, [], rfl, .done⟩
    | unpushed reason =>
      exact ⟨.ok .committed, _, rfl, transcript_push_iff.2 ⟨.error reason, rfl, rfl⟩⟩
    | pushed => exact ⟨.ok .committed, _, rfl, transcript_push_iff.2 ⟨.ok (), rfl, rfl⟩⟩

theorem transcript_confirm_iff :
    (confirm target next).Transcript l o ↔
      (∃ l', l = ⟨.repository .currentBranch, .ok target⟩ :: l' ∧ next.Transcript l' o) ∨
      (∃ reason, l = [⟨.repository .currentBranch, .error reason⟩] ∧
        o = .failed (.branch target reason)) ∨
      ∃ name, name ≠ target ∧ l = [⟨.repository .currentBranch, .ok name⟩] ∧
        o = .failed (.branch target ("still on '" ++ name ++ "' after checkout")) := by
  simp only [confirm, Program.transcript_ask_iff]
  constructor
  · rintro ⟨reason | name, l', rfl, h⟩
    · obtain ⟨rfl, rfl⟩ := Program.transcript_done_iff.1 h
      exact .inr (.inl ⟨reason, rfl, rfl⟩)
    · simp only at h
      split at h
      · next hname => exact .inl ⟨l', by rw [hname], h⟩
      · next hname =>
        obtain ⟨rfl, rfl⟩ := Program.transcript_done_iff.1 h
        exact .inr (.inr ⟨name, hname, rfl, rfl⟩)
  · rintro (⟨l', rfl, h⟩ | ⟨reason, rfl, rfl⟩ | ⟨name, hname, rfl, rfl⟩)
    · exact ⟨.ok target, l', rfl, by simpa using h⟩
    · exact ⟨.error reason, [], rfl, .done⟩
    · exact ⟨.ok name, [], rfl, by simp [hname]⟩

/-- Whether a branch is checked out or created, the workflow goes on in the same way. -/
theorem transcript_move_iff {names : List String} {k : Except String Unit → Workflow SaveOutcome} :
    Program.Transcript
        (if names.contains target then .ask (.repository (.checkout target)) k
          else .ask (.repository (.checkoutNew target)) k) l o ↔
      ∃ a l', l = (CallRecord.switch target names a).exchange :: l' ∧ (k a).Transcript l' o := by
  unfold CallRecord.switch
  split <;> exact Program.transcript_ask_iff

theorem transcript_switch_iff {first : Except String String} (hfirst : first ≠ .ok target) :
    (switch target next).Transcript l o ↔
      (∃ calls l', Preparation target (⟨.currentBranch, first⟩ :: calls) none ∧
        l = calls.map CallRecord.exchange ++ l' ∧ next.Transcript l' o) ∨
      ∃ calls reason, Preparation target (⟨.currentBranch, first⟩ :: calls) (some reason) ∧
        l = calls.map CallRecord.exchange ∧ o = .failed (.branch target reason) := by
  simp only [switch, Program.transcript_ask_iff]
  constructor
  · rintro ⟨reason | names, l', rfl, h⟩
    · obtain ⟨rfl, rfl⟩ := Program.transcript_done_iff.1 h
      exact .inr ⟨_, reason, .unlisted reason hfirst, rfl, rfl⟩
    · obtain ⟨reason | ⟨⟩, l', rfl, hmove⟩ := transcript_move_iff.1 h
      · obtain ⟨rfl, rfl⟩ := Program.transcript_done_iff.1 hmove
        exact .inr ⟨_, reason, .unmoved names reason hfirst, rfl, rfl⟩
      · obtain ⟨l', rfl, hnext⟩ | ⟨reason, rfl, rfl⟩ | ⟨name, hname, rfl, rfl⟩ :=
          transcript_confirm_iff.1 hmove
        · exact .inl ⟨_, l', .moved names hfirst, rfl, hnext⟩
        · exact .inr ⟨_, reason, .unreadable names reason hfirst, rfl, rfl⟩
        · exact .inr ⟨_, _, .elsewhere names hfirst hname, rfl, rfl⟩
  · rintro (⟨calls, l', h, rfl, hnext⟩ | ⟨calls, reason, h, rfl, rfl⟩)
    · cases h with
      | there => exact absurd rfl hfirst
      | moved names _ =>
        exact ⟨.ok names, _, rfl, transcript_move_iff.2
          ⟨.ok (), _, rfl, transcript_confirm_iff.2 (.inl ⟨l', rfl, hnext⟩)⟩⟩
    · cases h with
      | unlisted _ _ => exact ⟨.error reason, [], rfl, .done⟩
      | unmoved names _ _ =>
        exact ⟨.ok names, _, rfl, transcript_move_iff.2 ⟨.error reason, [], rfl, .done⟩⟩
      | unreadable names _ _ =>
        exact ⟨.ok names, _, rfl, transcript_move_iff.2
          ⟨.ok (), _, rfl, transcript_confirm_iff.2 (.inr (.inl ⟨reason, rfl, rfl⟩))⟩⟩
      | elsewhere names _ hname =>
        exact ⟨.ok names, _, rfl, transcript_move_iff.2
          ⟨.ok (), _, rfl, transcript_confirm_iff.2 (.inr (.inr ⟨_, hname, rfl, rfl⟩))⟩⟩

/-- The calls of a save whose first read of the branch does not give the target. -/
theorem transcript_switch_commit_iff {first : Except String String} (hfirst : first ≠ .ok target) :
    (switch target (commit target message)).Transcript l o ↔
      ∃ calls, l = calls.map CallRecord.exchange ∧
        Published target message (⟨.currentBranch, first⟩ :: calls) o := by
  rw [transcript_switch_iff hfirst]
  constructor
  · rintro (⟨calls, l', h, rfl, hcommit⟩ | ⟨calls, reason, h, rfl, rfl⟩)
    · obtain ⟨calls', rfl, h'⟩ := transcript_commit_iff.1 hcommit
      exact ⟨calls ++ calls', by simp, .prepared h h'⟩
    · exact ⟨calls, rfl, .abandoned h⟩
  · rintro ⟨calls, rfl, h⟩
    generalize hcalls : (⟨.currentBranch, first⟩ :: calls : List CallRecord) = all at h
    cases h with
    | @prepared pre tail _ h h' =>
      cases pre with
      | nil => cases h
      | cons record pre =>
        obtain ⟨rfl, rfl⟩ := List.cons.inj hcalls
        exact .inl ⟨pre, _, h, by simp, transcript_commit_iff.2 ⟨tail, rfl, h'⟩⟩
    | @abandoned _ reason h =>
      subst hcalls
      exact .inr ⟨calls, reason, h, rfl, rfl⟩

/-- A save that has the target branch checked out from the start only commits and pushes. -/
theorem published_target_iff {calls : List CallRecord} :
    Published target message (⟨.currentBranch, .ok target⟩ :: calls) o ↔
      Committed target message calls o := by
  constructor
  · intro h
    generalize hcalls : (⟨.currentBranch, .ok target⟩ :: calls : List CallRecord) = all at h
    cases h with
    | prepared h h' =>
      cases h with
      | there => exact (List.cons.inj hcalls).2 ▸ h'
      | moved names hfirst => exact absurd (by simpa using (List.cons.inj hcalls).1) hfirst.symm
    | abandoned h =>
      cases h <;> simp_all
  · exact .prepared .there

theorem Published.head {calls : List CallRecord} (h : Published target message calls o) :
    ∃ first rest, calls = ⟨.currentBranch, first⟩ :: rest := by
  cases h with
  | prepared h _ => cases h <;> exact ⟨_, _, rfl⟩
  | abandoned h => cases h <;> exact ⟨_, _, rfl⟩

theorem transcript_publish_iff :
    (publish target message).Transcript l o ↔
      ∃ calls, l = calls.map CallRecord.exchange ∧ Published target message calls o := by
  have key (first : Except String String) (l' : List (Exchange TreeStep TreeStep.Answer)) :
      Program.Transcript
          (match first with
            | .ok name =>
              if name = target then commit target message
              else switch target (commit target message)
            | .error _ => switch target (commit target message)) l' o ↔
        ∃ calls, l' = calls.map CallRecord.exchange ∧
          Published target message (⟨.currentBranch, first⟩ :: calls) o := by
    by_cases hfirst : first = .ok target
    · subst hfirst
      simp only [if_pos, transcript_commit_iff]
      exact exists_congr fun calls => and_congr_right fun _ => published_target_iff.symm
    · rw [← transcript_switch_commit_iff hfirst]
      cases first with
      | error _ => rfl
      | ok name => simp only [if_neg fun hname => hfirst (congrArg Except.ok hname)]
  simp only [publish, Program.transcript_ask_iff]
  constructor
  · rintro ⟨first, l', rfl, h⟩
    obtain ⟨calls, rfl, hcalls⟩ := (key first l').1 h
    exact ⟨_, rfl, hcalls⟩
  · rintro ⟨calls, rfl, h⟩
    obtain ⟨first, rest, rfl⟩ := h.head
    exact ⟨first, _, rfl, (key first _).2 ⟨rest, rfl, h⟩⟩

end Workflow
end PublishDesk
