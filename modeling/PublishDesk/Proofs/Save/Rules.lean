import PublishDesk.Proofs.Save.Calls

/-!
# The rules of a save

`SaveRules` says what a caller may rely on when he asks for a save, whatever the repository answers:
changes are committed only while the target branch is known to be checked out, nothing is pushed
that has not been committed before, no call follows one that has failed, and the outcome names the
step that came last. `Workflow.save_rules` says that every save keeps these rules.
-/

namespace PublishDesk

/-- What a call says of the branch that is checked out, if it asks for that. -/
def CallRecord.branchRead? : CallRecord → Option (Except String String)
  | ⟨.currentBranch, a⟩ => some a
  | _ => none

def lastBranch? (calls : List CallRecord) : Option (Except String String) :=
  (calls.filterMap CallRecord.branchRead?).getLast?

def asked (calls : List CallRecord) : List RepositoryCall := calls.map (·.1)

def RepositoryCall.isMove : RepositoryCall → Bool
  | .checkout _ | .checkoutNew _ => true
  | _ => false

/-- The calls to the repository among the steps of a workflow. -/
def callsOf (l : List (Exchange TreeStep TreeStep.Answer)) : List CallRecord :=
  l.filterMap fun
    | ⟨.repository c, a⟩ => some ⟨c, a⟩
    | _ => none

/-- The outcome of a save that ends after a given call, or without any. -/
inductive EndsAfter (target message : String) : Option CallRecord → SaveOutcome → Prop
  | nothing : EndsAfter target message none (.failed .emptyMessage)
  | unreadable (reason : String) :
    EndsAfter target message (some ⟨.currentBranch, .error reason⟩)
      (.failed (.branch target reason))
  | elsewhere {name : String} (h : name ≠ target) :
    EndsAfter target message (some ⟨.currentBranch, .ok name⟩)
      (.failed (.branch target ("still on '" ++ name ++ "' after checkout")))
  | unlisted (reason : String) :
    EndsAfter target message (some ⟨.branches, .error reason⟩) (.failed (.branch target reason))
  | notCheckedOut (reason : String) :
    EndsAfter target message (some ⟨.checkout target, .error reason⟩)
      (.failed (.branch target reason))
  | notCreated (reason : String) :
    EndsAfter target message (some ⟨.checkoutNew target, .error reason⟩)
      (.failed (.branch target reason))
  | refused (reason : String) :
    EndsAfter target message (some ⟨.commit message, .error reason⟩) (.failed (.commit reason))
  | clean :
    EndsAfter target message (some ⟨.commit message, .ok .nothingToCommit⟩)
      (.failed .nothingToCommit)
  | unpushed (reason : String) :
    EndsAfter target message (some ⟨.push target true, .error reason⟩)
      (.failed (.push target reason))
  | pushed : EndsAfter target message (some ⟨.push target true, .ok ()⟩) .saved

/-- The rules that the calls of a save keep, with the outcome of the save. -/
structure SaveRules (target message : String) (calls : List CallRecord) (outcome : SaveOutcome) :
    Prop where
  /-- Only a save without a message makes no call. -/
  nil_iff : calls = [] ↔ isBlankMessage message
  /-- Changes are committed if and only if the branch was last read to be the target. -/
  commit_iff : .commit message ∈ asked calls ↔ lastBranch? calls = some (.ok target)
  /-- Changes are committed with the given message, and after the branch was read. -/
  commit_after : ∀ pre m a post, calls = pre ++ ⟨.commit m, a⟩ :: post →
    m = message ∧ lastBranch? pre = some (.ok target)
  /-- The target branch is pushed if and only if changes have been committed. -/
  push_iff : .push target true ∈ asked calls ↔ ⟨.commit message, .ok .committed⟩ ∈ calls
  /-- Nothing but the target branch is pushed. -/
  push_only : ∀ b u, .push b u ∈ asked calls → b = target ∧ u = true
  saved_iff : outcome = .saved ↔ ⟨.push target true, .ok ()⟩ ∈ calls
  /-- A branch is checked out or created at most once. -/
  move_le : (asked calls).countP RepositoryCall.isMove ≤ 1
  checkout_iff : ∀ b, .checkout b ∈ asked calls ↔
    b = target ∧ ∃ names, ⟨.branches, .ok names⟩ ∈ calls ∧ target ∈ names
  checkoutNew_iff : ∀ b, .checkoutNew b ∈ asked calls ↔
    b = target ∧ ∃ names, ⟨.branches, .ok names⟩ ∈ calls ∧ target ∉ names
  /-- Nothing but the branch is asked for, or done, twice. -/
  count_le : ∀ c, c ≠ .currentBranch → (asked calls).count c ≤ 1
  /-- A call that fails is the last one, but for the first read of the branch. -/
  error_last : ∀ pre c reason post, calls = pre ++ ⟨c, .error reason⟩ :: post → post ≠ [] →
    pre = [] ∧ c = .currentBranch
  endsAfter : EndsAfter target message calls.getLast? outcome

namespace Workflow

variable {target message : String} {calls tail : List CallRecord} {failure : Option String}
  {o : SaveOutcome}

/-! ## The branch that was read last -/

theorem Preparation.lastBranch_iff (h : Preparation target calls failure) :
    lastBranch? calls = some (.ok target) ↔ failure = none := by
  cases h with
  | there => exact ⟨fun _ => rfl, fun _ => rfl⟩
  | moved names _ =>
    refine ⟨fun _ => rfl, fun _ => ?_⟩
    unfold CallRecord.switch
    split <;> rfl
  | unlisted reason hfirst =>
    exact ⟨fun h => absurd (Option.some.inj h) hfirst, nofun⟩
  | unmoved names reason hfirst =>
    refine ⟨fun h => absurd ?_ hfirst, nofun⟩
    unfold CallRecord.switch at h
    split at h <;> exact Option.some.inj h
  | unreadable names reason hfirst =>
    refine ⟨fun h => ?_, nofun⟩
    unfold CallRecord.switch at h
    split at h <;> cases Option.some.inj h
  | elsewhere names hfirst hname =>
    refine ⟨fun h => absurd ?_ hname, nofun⟩
    unfold CallRecord.switch at h
    split at h <;> exact Except.ok.inj (Option.some.inj h)

theorem Committed.branchRead (h : Committed target message tail o) :
    tail.filterMap CallRecord.branchRead? = [] := by
  cases h <;> rfl

theorem Committed.lastBranch_append (h : Committed target message tail o) :
    lastBranch? (calls ++ tail) = lastBranch? calls := by
  rw [lastBranch?, List.filterMap_append, h.branchRead, List.append_nil, lastBranch?]

/-! ## Which calls are made -/

/-- The call that a save with these branches makes to get to its target. -/
def moveTo (target : String) (names : List String) : RepositoryCall :=
  if target ∈ names then .checkout target else .checkoutNew target

/-- Up to the commit, the branch is read, and a branch is checked out if others are listed. -/
theorem Preparation.asked_mem_iff (h : Preparation target calls failure) {c : RepositoryCall}
    (hc : c ≠ .currentBranch) (hc' : c ≠ .branches) :
    c ∈ asked calls ↔ ∃ names, ⟨.branches, .ok names⟩ ∈ calls ∧ c = moveTo target names := by
  cases h with
  | there => simp [asked, hc]
  | unlisted => simp [asked, hc, hc']
  | moved names _ | unmoved names _ _ | unreadable names _ _ | elsewhere names _ _ =>
    unfold CallRecord.switch moveTo
    split <;> simp_all [asked]

theorem isMove_moveTo {names : List String} : (moveTo target names).isMove := by
  unfold moveTo
  split <;> rfl

/-- Nothing is committed or pushed before the target branch is in place. -/
theorem Preparation.asked_mem (h : Preparation target calls failure) {c : RepositoryCall}
    (hc : c ∈ asked calls) : c = .currentBranch ∨ c = .branches ∨ c.isMove := by
  by_cases h₁ : c = .currentBranch
  · exact .inl h₁
  by_cases h₂ : c = .branches
  · exact .inr (.inl h₂)
  obtain ⟨names, -, rfl⟩ := (h.asked_mem_iff h₁ h₂).1 hc
  exact .inr (.inr isMove_moveTo)

theorem Preparation.countP_isMove_le (h : Preparation target calls failure) :
    (asked calls).countP RepositoryCall.isMove ≤ 1 := by
  cases h with
  | there | unlisted _ _ => exact Nat.zero_le 1
  | moved names _ | unmoved names _ _ | unreadable names _ _ | elsewhere names _ _ =>
    unfold CallRecord.switch
    split <;> exact Nat.le_refl 1

theorem Committed.asked_mem (h : Committed target message tail o) {c : RepositoryCall}
    (hc : c ∈ asked tail) : c = .commit message ∨ c = .push target true := by
  cases h <;> simp_all [asked]

theorem Committed.commit_mem (h : Committed target message tail o) :
    .commit message ∈ asked tail := by
  cases h <;> exact List.mem_cons_self

theorem Committed.push_iff (h : Committed target message tail o) :
    .push target true ∈ asked tail ↔ ⟨.commit message, .ok .committed⟩ ∈ tail := by
  cases h <;> simp [asked]

theorem Committed.saved_iff (h : Committed target message tail o) :
    o = .saved ↔ ⟨.push target true, .ok ()⟩ ∈ tail := by
  cases h <;> simp

/-! ## Calls that fail -/

/-- The calls after the first one succeed, the last one perhaps excepted. -/
theorem Preparation.succeeds (h : Preparation target calls failure) :
    ∀ r ∈ calls.tail.dropLast, r.2.isOk := by
  cases h with
  | there | unlisted _ _ => simp
  | moved names _ | unmoved names _ _ | unreadable names _ _ | elsewhere names _ _ =>
    unfold CallRecord.switch
    split <;> simp [Except.isOk, Except.toBool]

theorem Preparation.succeeds_of_none (h : Preparation target calls none) :
    ∀ r ∈ calls.tail, r.2.isOk := by
  cases h with
  | there => simp
  | moved names _ =>
    unfold CallRecord.switch
    split <;> simp [Except.isOk, Except.toBool]

theorem Committed.succeeds (h : Committed target message tail o) :
    ∀ r ∈ tail.dropLast, r.2.isOk := by
  cases h <;> simp [Except.isOk, Except.toBool]

theorem Published.succeeds (h : Published target message calls o) :
    ∀ r ∈ calls.tail.dropLast, r.2.isOk := by
  cases h with
  | @prepared pre post _ h h' =>
    have hpre : pre ≠ [] := by cases h <;> simp
    have hpost : post ≠ [] := by cases h' <;> simp
    rw [List.tail_append_of_ne_nil hpre, List.dropLast_append_of_ne_nil hpost]
    intro r hr
    obtain hr | hr := List.mem_append.1 hr
    · exact h.succeeds_of_none r hr
    · exact h'.succeeds r hr
  | abandoned h => exact h.succeeds

/-! ## The step that a save ends with -/

theorem Preparation.endsAfter {reason : String} (h : Preparation target calls (some reason)) :
    EndsAfter target message calls.getLast? (.failed (.branch target reason)) := by
  cases h with
  | unlisted => exact .unlisted reason
  | unmoved names _ _ =>
    unfold CallRecord.switch
    split
    · exact .notCheckedOut reason
    · exact .notCreated reason
  | unreadable names _ _ => exact .unreadable reason
  | elsewhere names _ hname => exact .elsewhere hname

theorem Committed.endsAfter (h : Committed target message tail o) :
    EndsAfter target message tail.getLast? o := by
  cases h with
  | refused reason => exact .refused reason
  | clean => exact .clean
  | unpushed reason => exact .unpushed reason
  | pushed => exact .pushed

theorem Published.endsAfter (h : Published target message calls o) :
    EndsAfter target message calls.getLast? o := by
  cases h with
  | prepared _ h' =>
    have hend := h'.endsAfter
    rw [List.getLast?_append]
    cases h' <;> exact hend
  | abandoned h => exact h.endsAfter

/-! ## All rules together -/

theorem asked_append {l l' : List CallRecord} : asked (l ++ l') = asked l ++ asked l' :=
  List.map_append

theorem mem_asked {r : CallRecord} {l : List CallRecord} (h : r ∈ l) : r.1 ∈ asked l :=
  List.mem_map_of_mem h

theorem Preparation.not_commit (h : Preparation target calls failure) (m : String) :
    .commit m ∉ asked calls := fun hm => by
  obtain h | h | h := h.asked_mem hm <;> cases h

theorem Preparation.not_push (h : Preparation target calls failure) (b : String) (u : Bool) :
    .push b u ∉ asked calls := fun hm => by
  obtain h | h | h := h.asked_mem hm <;> cases h

theorem Committed.not_mem (h : Committed target message tail o) {c : RepositoryCall}
    (hc : c ≠ .commit message) (hc' : c ≠ .push target true) : c ∉ asked tail := fun hm =>
  (h.asked_mem hm).elim hc hc'

theorem Published.commit_iff (h : Published target message calls o) :
    .commit message ∈ asked calls ↔ lastBranch? calls = some (.ok target) := by
  cases h with
  | prepared h h' =>
    rw [h'.lastBranch_append, h.lastBranch_iff, asked_append]
    exact ⟨fun _ => rfl, fun _ => List.mem_append_right _ h'.commit_mem⟩
  | abandoned h =>
    rw [h.lastBranch_iff]
    exact ⟨fun hm => absurd hm (h.not_commit message), nofun⟩

/-- The commit is the first call after the target branch has been put in place. -/
theorem Committed.eq_nil_of_split (h : Committed target message tail o) {pre post : List CallRecord}
    {m : String} {a : Except String CommitOutcome} (hs : tail = pre ++ ⟨.commit m, a⟩ :: post) :
    pre = [] := by
  cases pre with
  | nil => rfl
  | cons r pre => cases h <;> simp [List.cons_eq_append_iff] at hs

theorem Published.commit_after (h : Published target message calls o) {pre post : List CallRecord}
    {m : String} {a : Except String CommitOutcome} (hs : calls = pre ++ ⟨.commit m, a⟩ :: post) :
    m = message ∧ lastBranch? pre = some (.ok target) := by
  cases h with
  | prepared h h' =>
    have hm : .commit m ∈ asked (pre ++ ⟨.commit m, a⟩ :: post) :=
      mem_asked (r := ⟨.commit m, a⟩) (by simp)
    rw [← hs, asked_append, List.mem_append] at hm
    have hmessage := (h'.asked_mem (hm.resolve_left (h.not_commit m))).resolve_right nofun
    obtain ⟨l, rfl, htail⟩ | ⟨l, rfl, htail⟩ := List.append_eq_append_iff.1 hs
    · obtain rfl := h'.eq_nil_of_split htail
      rw [List.append_nil]
      exact ⟨RepositoryCall.commit.inj hmessage, h.lastBranch_iff.2 rfl⟩
    · cases l with
      | nil =>
        rw [List.append_nil] at h
        exact ⟨RepositoryCall.commit.inj hmessage, h.lastBranch_iff.2 rfl⟩
      | cons r l =>
        obtain ⟨rfl, -⟩ := List.cons.inj htail
        exact absurd (mem_asked (r := ⟨.commit m, a⟩) (by simp)) (h.not_commit m)
  | abandoned h =>
    subst hs
    exact absurd (mem_asked (r := ⟨.commit m, a⟩) (by simp)) (h.not_commit m)

theorem Published.push_iff (h : Published target message calls o) :
    .push target true ∈ asked calls ↔ ⟨.commit message, .ok .committed⟩ ∈ calls := by
  cases h with
  | prepared h h' =>
    rw [asked_append, List.mem_append, List.mem_append, ← h'.push_iff]
    refine or_congr_left ⟨fun hm => absurd hm (h.not_push target true), fun hm => ?_⟩
    exact absurd (mem_asked hm) (h.not_commit message)
  | abandoned h =>
    refine ⟨fun hm => absurd hm (h.not_push target true), fun hm => ?_⟩
    exact absurd (mem_asked hm) (h.not_commit message)

theorem Published.push_only (h : Published target message calls o) {b : String} {u : Bool}
    (hm : .push b u ∈ asked calls) : b = target ∧ u = true := by
  cases h with
  | prepared h h' =>
    rw [asked_append, List.mem_append] at hm
    have hpush := (h'.asked_mem (hm.resolve_left (h.not_push b u))).resolve_left nofun
    exact RepositoryCall.push.inj hpush
  | abandoned h => exact absurd hm (h.not_push b u)

theorem Published.saved_iff (h : Published target message calls o) :
    o = .saved ↔ ⟨.push target true, .ok ()⟩ ∈ calls := by
  cases h with
  | prepared h h' =>
    rw [h'.saved_iff, List.mem_append]
    exact ⟨.inr, fun hm => hm.resolve_left fun hm => h.not_push target true (mem_asked hm)⟩
  | abandoned h =>
    exact ⟨nofun, fun hm => absurd (mem_asked hm) (h.not_push target true)⟩

theorem Published.countP_isMove_le (h : Published target message calls o) :
    (asked calls).countP RepositoryCall.isMove ≤ 1 := by
  cases h with
  | @prepared _ post _ h h' =>
    have hpost : (asked post).countP RepositoryCall.isMove = 0 := by cases h' <;> rfl
    rw [asked_append, List.countP_append, hpost]
    exact h.countP_isMove_le
  | abandoned h => exact h.countP_isMove_le

theorem Preparation.count_le (h : Preparation target calls failure) {c : RepositoryCall}
    (hc : c ≠ .currentBranch) : (asked calls).count c ≤ 1 := by
  cases h with
  | there => simp [asked, hc.symm]
  | unlisted _ _ => simp only [asked, List.map, List.count_cons]; grind
  | moved names _ | unmoved names _ _ | unreadable names _ _ | elsewhere names _ _ =>
    unfold CallRecord.switch
    split <;> simp only [asked, List.map, List.count_cons] <;> grind

theorem Published.count_le (h : Published target message calls o) {c : RepositoryCall}
    (hc : c ≠ .currentBranch) : (asked calls).count c ≤ 1 := by
  cases h with
  | @prepared _ post _ h h' =>
    rw [asked_append, List.count_append]
    by_cases hpost : c ∈ asked post
    · have hpre : (asked _).count c = 0 := List.count_eq_zero.2 fun hpre => by
        obtain rfl | rfl := h'.asked_mem hpost
        · exact h.not_commit message hpre
        · exact h.not_push target true hpre
      rw [hpre, Nat.zero_add]
      cases h' <;> simp only [asked, List.map, List.count_cons] <;> grind
    · rw [List.count_eq_zero.2 hpost]
      exact h.count_le hc
  | abandoned h => exact h.count_le hc

/-- A save goes to its target branch if and only if it has been told which branches there are. -/
theorem Published.move_iff (h : Published target message calls o) {c : RepositoryCall}
    (hc : c.isMove) :
    c ∈ asked calls ↔ ∃ names, ⟨.branches, .ok names⟩ ∈ calls ∧ c = moveTo target names := by
  have hread : c ≠ .currentBranch := by rintro rfl; cases hc
  have hlist : c ≠ .branches := by rintro rfl; cases hc
  cases h with
  | @prepared _ post _ h h' =>
    have hpost : c ∉ asked post := h'.not_mem (by rintro rfl; cases hc) (by rintro rfl; cases hc)
    have hnames (names : List String) : ⟨.branches, .ok names⟩ ∉ post := fun hm =>
      h'.not_mem (c := .branches) nofun nofun (mem_asked hm)
    simp only [asked_append, List.mem_append, hpost, hnames, or_false]
    exact h.asked_mem_iff hread hlist
  | abandoned h => exact h.asked_mem_iff hread hlist

theorem Published.checkout_iff (h : Published target message calls o) (b : String) :
    .checkout b ∈ asked calls ↔
      b = target ∧ ∃ names, ⟨.branches, .ok names⟩ ∈ calls ∧ target ∈ names := by
  rw [h.move_iff rfl]
  constructor
  · rintro ⟨names, hm, hmove⟩
    unfold moveTo at hmove
    split at hmove
    · next hmem => exact ⟨RepositoryCall.checkout.inj hmove, names, hm, hmem⟩
    · cases hmove
  · rintro ⟨rfl, names, hm, hmem⟩
    exact ⟨names, hm, (if_pos hmem).symm⟩

theorem Published.checkoutNew_iff (h : Published target message calls o) (b : String) :
    .checkoutNew b ∈ asked calls ↔
      b = target ∧ ∃ names, ⟨.branches, .ok names⟩ ∈ calls ∧ target ∉ names := by
  rw [h.move_iff rfl]
  constructor
  · rintro ⟨names, hm, hmove⟩
    unfold moveTo at hmove
    split at hmove
    · cases hmove
    · next hmem => exact ⟨RepositoryCall.checkoutNew.inj hmove, names, hm, hmem⟩
  · rintro ⟨rfl, names, hm, hmem⟩
    exact ⟨names, hm, (if_neg hmem).symm⟩

theorem Published.error_last (h : Published target message calls o) {pre post : List CallRecord}
    {c : RepositoryCall} {reason : String} (hs : calls = pre ++ ⟨c, .error reason⟩ :: post)
    (hpost : post ≠ []) : pre = [] ∧ c = .currentBranch := by
  obtain ⟨first, rest, hhead⟩ := h.head
  have hsucceeds := h.succeeds
  rw [hs] at hhead hsucceeds
  cases pre with
  | nil => exact ⟨rfl, congrArg Sigma.fst (List.cons.inj hhead).1⟩
  | cons r pre =>
    rw [List.cons_append, List.tail_cons, List.dropLast_append_cons] at hsucceeds
    obtain ⟨r', post, rfl⟩ := List.exists_cons_of_ne_nil hpost
    exact absurd (hsucceeds ⟨c, .error reason⟩ (by simp)) nofun

theorem Published.rules (hmessage : ¬ isBlankMessage message)
    (h : Published target message calls o) : SaveRules target message calls o where
  nil_iff := by
    obtain ⟨first, rest, rfl⟩ := h.head
    exact ⟨nofun, fun hb => absurd hb hmessage⟩
  commit_iff := h.commit_iff
  commit_after _ _ _ _ hs := h.commit_after hs
  push_iff := h.push_iff
  push_only _ _ hm := h.push_only hm
  saved_iff := h.saved_iff
  move_le := h.countP_isMove_le
  checkout_iff := h.checkout_iff
  checkoutNew_iff := h.checkoutNew_iff
  count_le _ hc := h.count_le hc
  error_last _ _ _ _ hs hpost := h.error_last hs hpost
  endsAfter := h.endsAfter

theorem rules_nil (hmessage : isBlankMessage message) :
    SaveRules target message [] (.failed .emptyMessage) where
  nil_iff := ⟨fun _ => hmessage, fun _ => rfl⟩
  commit_iff := ⟨nofun, nofun⟩
  commit_after pre m a post hs := by simp at hs
  push_iff := ⟨nofun, nofun⟩
  push_only := nofun
  saved_iff := ⟨nofun, nofun⟩
  move_le := Nat.zero_le 1
  checkout_iff b := ⟨nofun, nofun⟩
  checkoutNew_iff b := ⟨nofun, nofun⟩
  count_le _ _ := Nat.zero_le 1
  error_last pre c reason post hs := by simp at hs
  endsAfter := .nothing

/-! ## Saves -/

theorem callsOf_exchange : callsOf (calls.map CallRecord.exchange) = calls := by
  induction calls with
  | nil => rfl
  | cons r l ih => exact congrArg (r :: ·) ih

theorem callsOf_held :
    callsOf (⟨.acquire, ()⟩ :: (calls.map CallRecord.exchange ++ [⟨.release, ()⟩])) = calls := by
  rw [callsOf, List.filterMap_cons_none rfl, List.filterMap_append]
  exact (List.append_nil _).trans callsOf_exchange

/-- The steps of a save: a save that has a message takes the working tree, publishes, and lets go
of the tree. -/
theorem transcript_save_iff {l : List (Exchange TreeStep TreeStep.Answer)} :
    (save target message).Transcript l o ↔
      if isBlankMessage message then l = [] ∧ o = .failed .emptyMessage
      else ∃ calls, Published target message calls o ∧
        l = ⟨.acquire, ()⟩ :: (calls.map CallRecord.exchange ++ [⟨.release, ()⟩]) := by
  unfold save
  split
  · exact Program.transcript_done_iff
  · simp only [Program.transcript_ask_iff, Program.transcript_bind_iff, transcript_publish_iff,
      Program.transcript_done_iff]
    constructor
    · rintro ⟨⟨⟩, _, rfl, _, o', _, rfl, ⟨calls, rfl, h⟩, ⟨⟩, _, rfl, rfl, rfl⟩
      exact ⟨calls, h, rfl⟩
    · rintro ⟨calls, h, rfl⟩
      exact ⟨(), _, rfl, _, o, _, rfl, ⟨calls, rfl, h⟩, (), [], rfl, rfl, rfl⟩

theorem rules_of_transcript {l : List (Exchange TreeStep TreeStep.Answer)}
    (h : (save target message).Transcript l o) : SaveRules target message (callsOf l) o := by
  rw [transcript_save_iff] at h
  split at h
  · next hmessage =>
    obtain ⟨rfl, rfl⟩ := h
    exact rules_nil hmessage
  · next hmessage =>
    obtain ⟨calls, h, rfl⟩ := h
    rw [callsOf_held]
    exact h.rules hmessage

/-- Every save keeps the rules, whatever the repository answers to each call. -/
theorem save_rules {σ : Type} (answer : (s : TreeStep) → σ → s.Answer × σ) (s : σ)
    (target message : String) :
    SaveRules target message (callsOf ((save target message).transcript answer s))
      ((save target message).run answer s).1 :=
  rules_of_transcript (Program.transcript_run answer _ s)

end Workflow
end PublishDesk
