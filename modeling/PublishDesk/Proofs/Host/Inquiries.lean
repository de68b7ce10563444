import PublishDesk.Proofs.Host.WorkerHost

/-!
# Status reads side by side

Answering a ping and making a report both begin with a status read. Status reads let go of the
working tree before they look up the open review, so several of them overlap, and they need not end
in the order in which they began. What each answers depends on what it has read and found itself,
and, if it could not read the branch, on the answer that came right before its own
(`WorkerHost.Run.inquired`).
-/

namespace PublishDesk

/-- What comes of a look-up of the open review. -/
abbrev LookupResult := Except ReviewFailure (Option String)

/-- A look-up of the open review of a branch. -/
abbrev Lookup := String × LookupResult

/-- The link to answer with, given the one that was answered before, the branch that has been read
and the look-ups that have been made. -/
inductive LinkFor (target : String) (previous : Option String) :
    Except String String → List Lookup → Option String → Prop
  | unreadable (reason : String) : LinkFor target previous (.error reason) [] previous
  | elsewhere {name : String} (h : name ≠ target) : LinkFor target previous (.ok name) [] none
  | found (link : Option String) :
    LinkFor target previous (.ok target) [(target, .ok link)] link
  | failed (e : ReviewFailure) : LinkFor target previous (.ok target) [(target, .error e)] none

/-- What a status read finds on a branch, and the results of its look-ups. -/
inductive Workflow.Finds (target : String) :
    Except String String → List LookupResult → RepositoryStatus → Prop
  | unreadable (reason : String) : Finds target (.error reason) [] {}
  | elsewhere {name : String} (h : name ≠ target) :
    Finds target (.ok name) [] ⟨some (BranchState.observe name target), none⟩
  | looked (review : LookupResult) :
    Finds target (.ok target) [review]
      ⟨some (BranchState.observe target target), review.toOption.join⟩

variable {target : String}

theorem Workflow.Finds.linkFor {branch : Except String String}
    {reviews : List LookupResult} {status : RepositoryStatus}
    (h : Finds target branch reviews status) (previous : Option String) :
    LinkFor target previous branch (reviews.map (target, ·)) (status.linkAfter previous) := by
  cases h with
  | unreadable reason => exact .unreadable reason
  | elsewhere hname => exact .elsewhere hname
  | looked review =>
    cases review with
    | ok link => exact .found link
    | error e => exact .failed e

theorem Workflow.finds_of_transcript {l : List (Exchange TreeStep TreeStep.Answer)}
    {s : RepositoryStatus} (h : (status target).Transcript l s) :
    ∃ branch reviews, Finds target branch reviews s ∧
      l = [⟨.acquire, ()⟩, ⟨.repository .currentBranch, branch⟩, ⟨.release, ()⟩] ++
        reviews.map (⟨.findReview target, ·⟩) := by
  simp only [status, Program.transcript_ask_iff] at h
  obtain ⟨⟨⟩, _, rfl, reason | name, _, rfl, ⟨⟩, l, rfl, h⟩ := h
  · obtain ⟨rfl, rfl⟩ := Program.transcript_done_iff.1 h
    exact ⟨_, [], .unreadable reason, rfl⟩
  · simp only at h
    split at h
    · next hname =>
      subst hname
      obtain ⟨review, _, rfl, hdone⟩ := Program.transcript_ask_iff.1 h
      obtain ⟨rfl, rfl⟩ := Program.transcript_done_iff.1 hdone
      exact ⟨_, [review], .looked review, rfl⟩
    · next hname =>
      obtain ⟨rfl, rfl⟩ := Program.transcript_done_iff.1 h
      exact ⟨_, [], .elsewhere hname, rfl⟩

/-! ## What a job has read, looked up and answered -/

namespace Job

def branch? : Made → Option (Except String String)
  | ⟨.tree (.repository .currentBranch), a⟩ => some a
  | _ => none

def lookup? : Made → Option Lookup
  | ⟨.tree (.findReview b), a⟩ => some (b, a)
  | _ => none

def update? : Made → Option (RepositoryStatus × Option String)
  | ⟨.updateLink status, link⟩ => some (status, link)
  | _ => none

/-- The branches that have been read. -/
def branchesOf (l : List Made) : List (Except String String) := l.filterMap branch?

def lookupsOf (l : List Made) : List Lookup := l.filterMap lookup?

/-- The links that have been answered, and what has been found before. -/
def updatesOf (l : List Made) : List (RepositoryStatus × Option String) := l.filterMap update?

/-- A status read up to the time at which it lets go of the working tree. -/
def reading (up : Bool) (branch : Except String String) : List Made :=
  [⟨.workerUp, up⟩, ⟨.tree .acquire, ()⟩, ⟨.tree (.repository .currentBranch), branch⟩,
    ⟨.tree .release, ()⟩]

def looking (target : String) (reviews : List LookupResult) : List Made :=
  reviews.map (⟨.tree (.findReview target), ·⟩)

theorem transcript_status {l : List Made} {s : HostStatus}
    (h : (status target).Transcript l s) : ∃ up branch reviews found link,
      Workflow.Finds target branch reviews found ∧ s = ⟨up, link⟩ ∧
        l = reading up branch ++ (looking target reviews ++ [⟨.updateLink found, link⟩]) := by
  simp only [status, Program.transcript_bind_iff, transcript_ofWorkflow_iff,
    Program.transcript_ask_iff, Program.transcript_done_iff] at h
  obtain ⟨up, _, rfl, _, found, _, rfl, ⟨l', rfl, hfound⟩, link, _, rfl, rfl, rfl⟩ := h
  obtain ⟨branch, reviews, hfinds, rfl⟩ := Workflow.finds_of_transcript hfound
  refine ⟨up, branch, reviews, found, link, hfinds, rfl, ?_⟩
  simp [reading, looking]

@[simp] theorem branchesOf_append (l l' : List Made) :
    branchesOf (l ++ l') = branchesOf l ++ branchesOf l' := List.filterMap_append

@[simp] theorem lookupsOf_append (l l' : List Made) :
    lookupsOf (l ++ l') = lookupsOf l ++ lookupsOf l' := List.filterMap_append

@[simp] theorem updatesOf_append (l l' : List Made) :
    updatesOf (l ++ l') = updatesOf l ++ updatesOf l' := List.filterMap_append

theorem updatesOf_stepsOfWorkflow (l : List (Exchange TreeStep TreeStep.Answer)) :
    updatesOf (stepsOfWorkflow l) = [] := by
  induction l with
  | nil => rfl
  | cons e l ih => exact ih

/-- A save looks nothing up. -/
theorem lookupsOf_save {message : String} {l : List (Exchange TreeStep TreeStep.Answer)}
    {o : SaveOutcome} (h : (Workflow.save target message).Transcript l o) :
    lookupsOf (stepsOfWorkflow l) = [] := by
  rw [Workflow.transcript_save_iff] at h
  split at h
  · rw [h.1]
    rfl
  · obtain ⟨calls, -, rfl⟩ := h
    refine List.filterMap_eq_nil_iff.2 fun e he => ?_
    obtain ⟨e, hmem, rfl⟩ := List.mem_map.1 he
    obtain rfl | hmem := List.mem_cons.1 hmem
    · rfl
    obtain hmem | hmem := List.mem_append.1 hmem
    · obtain ⟨r, -, rfl⟩ := List.mem_map.1 hmem
      rfl
    · rw [List.mem_singleton.1 hmem]
      rfl

variable {l l' tail : List Made} {up : Bool} {branch : Except String String}
  {reviews : List LookupResult} {found : RepositoryStatus}
  {link : Option String}

/-- How far a job has come with its status read. -/
inductive InquiryPath (target : String) (l : List Made) : Prop
  /-- It has made no look-up. -/
  | reading (hlookups : lookupsOf l = []) (hupdates : updatesOf l = [])
    (hpongs : ∀ s, .pong s ∉ posts l)
  | looked {review : LookupResult} (hbranches : branchesOf l = [.ok target])
    (hlookups : lookupsOf l = [(target, review)]) (hupdates : updatesOf l = [])
    (hpongs : ∀ s, .pong s ∉ posts l)
  | answered {branch : Except String String}
    {reviews : List LookupResult} {found : RepositoryStatus}
    {link : Option String} (hfinds : Workflow.Finds target branch reviews found)
    (hbranches : branchesOf l = [branch]) (hlookups : lookupsOf l = reviews.map (target, ·))
    (hupdates : updatesOf l = [(found, link)])
    (hpongs : ∀ s, .pong s ∈ posts l → s.reviewLink = link)

/-- What a job does after its status read. -/
structure Closing (link : Option String) (tail : List Made) : Prop where
  branches : branchesOf tail = []
  lookups : lookupsOf tail = []
  updates : updatesOf tail = []
  pongs : ∀ s, .pong s ∈ posts tail → s.reviewLink = link

theorem lookupsOf_looking (target : String) (reviews : List LookupResult) :
    lookupsOf (looking target reviews) = reviews.map (target, ·) := by
  rw [lookupsOf, looking, List.filterMap_map]
  exact congrFun List.filterMap_eq_map' reviews

theorem filterMap_looking {β : Type} {f : Made → Option β}
    (hf : ∀ review, f ⟨.tree (.findReview target), review⟩ = none)
    (reviews : List LookupResult) :
    (looking target reviews).filterMap f = [] := by
  refine List.filterMap_eq_nil_iff.2 fun e he => ?_
  obtain ⟨review, -, rfl⟩ := List.mem_map.1 he
  exact hf review

theorem branchesOf_looking (target : String) (reviews : List LookupResult) :
    branchesOf (looking target reviews) = [] := filterMap_looking (fun _ => rfl) reviews

theorem updatesOf_looking (target : String) (reviews : List LookupResult) :
    updatesOf (looking target reviews) = [] := filterMap_looking (fun _ => rfl) reviews

theorem posts_looking (target : String) (reviews : List LookupResult) :
    posts (looking target reviews) = [] := filterMap_looking (fun _ => rfl) reviews

theorem InquiryPath.of_looking (hfinds : Workflow.Finds target branch reviews found)
    (h : looking target reviews = l ++ l') : InquiryPath target (Job.reading up branch ++ l) := by
  obtain rfl | ⟨review, rfl, rfl, rfl⟩ :
      l = [] ∨ ∃ review, reviews = [review] ∧ branch = .ok target ∧
        l = looking target [review] := by
    cases hfinds with
    | unreadable reason => exact .inl (List.append_eq_nil_iff.1 h.symm).1
    | elsewhere hname => exact .inl (List.append_eq_nil_iff.1 h.symm).1
    | looked review =>
      obtain ⟨hnil, -⟩ | ⟨l, rfl, hrest⟩ := List.cons_eq_append_iff.1 h
      · exact .inl hnil
      · obtain ⟨rfl, rfl⟩ := List.append_eq_nil_iff.1 hrest.symm
        exact .inr ⟨review, rfl, rfl, rfl⟩
  · exact .reading rfl rfl nofun
  · exact .looked rfl rfl rfl nofun

theorem InquiryPath.of_append (hfinds : Workflow.Finds target branch reviews found)
    (hclosing : Closing link tail) (h : l ++ l' = Job.reading up branch ++
      (looking target reviews ++ ⟨.updateLink found, link⟩ :: tail)) : InquiryPath target l := by
  obtain ⟨l₁, hl, -⟩ | ⟨l₁, rfl, hrest⟩ := List.append_eq_append_iff.1 h
  · -- It has not even let go of the working tree.
    have hnone {β : Type} {f : Made → Option β} (hf : (Job.reading up branch).filterMap f = []) :
        l.filterMap f = [] := by
      rw [hl, List.filterMap_append] at hf
      exact (List.append_eq_nil_iff.1 hf).1
    have hposts : posts l = [] := hnone rfl
    exact .reading (hnone rfl) (hnone rfl) fun s hs => by simp [hposts] at hs
  obtain ⟨l₂, rfl, htail⟩ | ⟨l₂, hl, -⟩ := List.append_eq_append_iff.1 hrest
  · obtain ⟨rfl, -⟩ | ⟨l₃, rfl, rfl⟩ := List.cons_eq_append_iff.1 htail
    · rw [List.append_nil]
      exact .of_looking hfinds (List.append_nil _).symm
    obtain ⟨hbranches, hlookups, hupdates, hpongs⟩ := hclosing
    rw [branchesOf_append, List.append_eq_nil_iff] at hbranches
    rw [lookupsOf_append, List.append_eq_nil_iff] at hlookups
    rw [updatesOf_append, List.append_eq_nil_iff] at hupdates
    refine .answered hfinds ?_ ?_ ?_ fun s hs => hpongs s ?_
    · have hlast : branchesOf (⟨.updateLink found, link⟩ :: l₃) = [] := hbranches.1
      rw [branchesOf_append, branchesOf_append, branchesOf_looking, hlast]
      rfl
    · have hlast : lookupsOf (⟨.updateLink found, link⟩ :: l₃) = [] := hlookups.1
      rw [lookupsOf_append, lookupsOf_append, lookupsOf_looking, hlast, List.append_nil]
      rfl
    · have hlast : updatesOf (⟨.updateLink found, link⟩ :: l₃) = [(found, link)] :=
        congrArg (_ :: ·) hupdates.1
      rw [updatesOf_append, updatesOf_append, updatesOf_looking, hlast]
      rfl
    · rw [posts_append, posts_append, posts_looking] at hs
      rw [posts_append]
      exact List.mem_append_left _ hs
  · exact .of_looking hfinds hl

/-- A look-up is made once, and after the target branch has been read. -/
theorem InquiryPath.lookups (h : InquiryPath target l) : lookupsOf l = [] ∨
    branchesOf l = [.ok target] ∧ ∃ review, lookupsOf l = [(target, review)] := by
  cases h with
  | reading hlookups => exact .inl hlookups
  | looked hbranches hlookups => exact .inr ⟨hbranches, _, hlookups⟩
  | answered hfinds hbranches hlookups =>
    cases hfinds with
    | unreadable | elsewhere => exact .inl hlookups
    | looked review => exact .inr ⟨hbranches, review, hlookups⟩

theorem InquiryPath.length_updates_le (h : InquiryPath target l) : (updatesOf l).length ≤ 1 := by
  cases h with
  | reading _ hupdates | looked _ _ hupdates => simp [hupdates]
  | answered _ _ _ hupdates => simp [hupdates]

/-- What has been answered to a ping is the answer of the read. -/
theorem InquiryPath.of_pong (h : InquiryPath target l) {s : HostStatus} (hs : .pong s ∈ posts l) :
    ∃ found, (found, s.reviewLink) ∈ updatesOf l := by
  cases h with
  | reading _ _ hpongs => exact absurd hs (hpongs s)
  | looked _ _ _ hpongs => exact absurd hs (hpongs s)
  | @answered _ _ found _ _ _ _ hupdates hpongs =>
    refine ⟨found, ?_⟩
    rw [hupdates, hpongs s hs]
    exact List.mem_singleton_self _

/-- An answer is given by what has been read and looked up before. -/
theorem InquiryPath.finds (h : InquiryPath target l) (hmem : (found, link) ∈ updatesOf l) :
    ∃ branch reviews, Workflow.Finds target branch reviews found ∧ branchesOf l = [branch] ∧
      lookupsOf l = reviews.map (target, ·) := by
  cases h with
  | reading _ hupdates | looked _ _ hupdates =>
    rw [hupdates] at hmem
    cases hmem
  | answered hfinds hbranches hlookups hupdates =>
    rw [hupdates] at hmem
    cases List.mem_singleton.1 hmem
    exact ⟨_, _, hfinds, hbranches, hlookups⟩

end Job

/-! ## The jobs that read the status -/

open Job (Made branchesOf lookupsOf updatesOf posts InquiryPath)

namespace Duty

variable {d : Duty} {l tail : List Made} {p : Job (Option StatusReport)} {r : Option StatusReport}
  {up : Bool} {link : Option String}

/-- Whether a job reads the status. -/
def isInquiry : Duty → Bool
  | .save _ => false
  | .ping | .report => true

/-- What a job does after its status read, and what it ends with. -/
inductive Ends (up : Bool) (link : Option String) : Duty → List Made → Option StatusReport → Prop
  | ping : Ends up link .ping [⟨.endPoll, ()⟩, ⟨.post (.pong ⟨up, link⟩), ()⟩] none
  | report (shown : Option WorkerSnapshot) :
    Ends up link .report [⟨.worker, shown⟩] (some ⟨⟨up, link⟩, shown⟩)

theorem Ends.closing (h : Ends up link d tail r) : Job.Closing link tail := by
  cases h with
  | report shown => exact ⟨rfl, rfl, rfl, nofun⟩
  | ping =>
    refine ⟨rfl, rfl, rfl, fun s hs => ?_⟩
    cases List.mem_singleton.1 (show .pong s ∈ [Message.pong ⟨up, link⟩] from hs)
    rfl

theorem transcript_job (hd : d.isInquiry) (h : (d.job target).Transcript l r) :
    ∃ up branch reviews found link tail, Workflow.Finds target branch reviews found ∧
      Ends up link d tail r ∧ l = Job.reading up branch ++
        (Job.looking target reviews ++ ⟨.updateLink found, link⟩ :: tail) := by
  cases d with
  | save message => cases hd
  | ping =>
    rw [job, Program.transcript_map_iff] at h
    obtain ⟨⟨⟩, rfl, h⟩ := h
    simp only [Job.poll, Program.transcript_bind_iff, Program.transcript_ask_iff,
      Program.transcript_done_iff] at h
    obtain ⟨_, s, _, rfl, hstatus, ⟨⟩, _, rfl, ⟨⟩, _, rfl, rfl, -⟩ := h
    obtain ⟨up, branch, reviews, found, link, hfinds, rfl, rfl⟩ := Job.transcript_status hstatus
    exact ⟨up, branch, reviews, found, link, _, hfinds, .ping, by simp⟩
  | report =>
    rw [job, Program.transcript_map_iff] at h
    obtain ⟨_, rfl, h⟩ := h
    simp only [Job.report, Program.transcript_bind_iff, Program.transcript_ask_iff,
      Program.transcript_done_iff] at h
    obtain ⟨_, s, _, rfl, hstatus, shown, _, rfl, rfl, rfl⟩ := h
    obtain ⟨up, branch, reviews, found, link, hfinds, rfl, rfl⟩ := Job.transcript_status hstatus
    exact ⟨up, branch, reviews, found, link, _, hfinds, .report shown, by simp⟩

theorem inquiryPath (hd : d.isInquiry) (h : (d.job target).Leads l p) : InquiryPath target l := by
  obtain ⟨rest, r, hrest⟩ := Program.exists_transcript p
  obtain ⟨_, _, _, _, _, _, hfinds, hends, hl⟩ := transcript_job hd (h.transcript hrest)
  exact .of_append hfinds hends.closing hl

/-- A job that carries out a save request reads no status. -/
theorem readsNothing (hd : ¬ d.isInquiry) (h : (d.job target).Leads l p) :
    lookupsOf l = [] ∧ updatesOf l = [] ∧ ∀ s, .pong s ∉ posts l := by
  obtain ⟨message, rfl⟩ : ∃ message, d = .save message := by
    cases d with
    | save message => exact ⟨message, rfl⟩
    | ping | report => exact absurd rfl hd
  obtain ⟨rest, r, hrest⟩ := Program.exists_transcript p
  have hall := h.transcript hrest
  rw [job, Program.transcript_map_iff] at hall
  obtain ⟨⟨⟩, -, hall⟩ := hall
  obtain ⟨l', o, hsave, hl⟩ := Job.transcript_save_iff.1 hall
  refine ⟨?_, ?_, fun s hs => ?_⟩
  · have hnil : lookupsOf l ++ lookupsOf rest = [] := by
      rw [← Job.lookupsOf_append, hl, Job.lookupsOf_append, Job.lookupsOf_save hsave]
      rfl
    exact (List.append_eq_nil_iff.1 hnil).1
  · have hnil : updatesOf l ++ updatesOf rest = [] := by
      rw [← Job.updatesOf_append, hl, Job.updatesOf_append, Job.updatesOf_stepsOfWorkflow]
      rfl
    exact (List.append_eq_nil_iff.1 hnil).1
  · have hmem : .pong s ∈ posts l ++ posts rest := List.mem_append_left _ hs
    rw [← Job.posts_append, hl, Job.posts_append, Job.posts_stepsOfWorkflow] at hmem
    cases List.mem_singleton.1 hmem

theorem inquiryPath_of_leads (h : (d.job target).Leads l p) : InquiryPath target l := by
  by_cases hd : d.isInquiry
  · exact inquiryPath hd h
  · obtain ⟨hlookups, hupdates, hpongs⟩ := readsNothing hd h
    exact .reading hlookups hupdates hpongs

theorem isInquiry_of_lookups (h : (d.job target).Leads l p) (hl : lookupsOf l ≠ []) :
    d.isInquiry := by
  by_contra hd
  exact hl (readsNothing hd h).1

/-- A job that comes to a look-up has read the target branch, and has not looked it up before. -/
theorem looking_of_leads {branch : String} {next : LookupResult → Job (Option StatusReport)}
    (h : (d.job target).Leads l (.ask (.tree (.findReview branch)) next)) :
    branch = target ∧ branchesOf l = [.ok target] ∧ lookupsOf l = [] ∧ d.isInquiry := by
  have hlooked := h.snoc (.ok none)
  have hlookups : lookupsOf (l ++ [⟨.tree (.findReview branch), .ok none⟩]) =
      lookupsOf l ++ [(branch, .ok none)] := Job.lookupsOf_append ..
  have hsome : lookupsOf (l ++ [⟨.tree (.findReview branch), .ok none⟩]) ≠ [] := by simp [hlookups]
  have hinquiry := isInquiry_of_lookups hlooked hsome
  obtain hnone | ⟨hbranches, review, hone⟩ := (inquiryPath hinquiry hlooked).lookups
  · exact absurd hnone hsome
  · obtain ⟨hnil, heq⟩ := List.append_inj' ((hlookups.symm.trans hone).trans
      (List.nil_append _).symm) rfl
    cases heq
    rw [Job.branchesOf_append] at hbranches
    exact ⟨rfl, (List.append_nil _).symm.trans hbranches, hnil, hinquiry⟩

/-- A job that has ended has answered with a link, if it reads the status. -/
theorem updates_of_transcript (hd : d.isInquiry) (h : (d.job target).Transcript l r) :
    ∃ found link, (found, link) ∈ updatesOf l ∧ ∀ s, r = some s → s.status.reviewLink = link := by
  obtain ⟨up, branch, reviews, found, link, tail, -, hends, rfl⟩ := transcript_job hd h
  refine ⟨found, link, ?_, fun s hs => ?_⟩
  · rw [Job.updatesOf_append, Job.updatesOf_append]
    exact List.mem_append_right _ (List.mem_append_right _ List.mem_cons_self)
  · cases hends with
    | ping => cases hs
    | report shown =>
      cases hs
      rfl

end Duty

/-! ## Runs -/

namespace WorkerHost

/-- A status read that has been completed: the number of its job, and the link it answers with. -/
def Event.completion? : Event → Option (Nat × Option String)
  | .noted i (.met ⟨.updateLink _, link⟩) => some (i, link)
  | _ => none

/-- The status reads that have been completed, in order. -/
def completions (l : List Event) : List (Nat × Option String) := l.filterMap Event.completion?

/-- The link of the last of these answers; none if there is none. -/
def previous (answers : List (Nat × Option String)) : Option String :=
  answers.getLast?.bind (·.2)

variable {first : Option Supervision} {l : List Event} {x : WorkerHost} {i : Nat} {d : Duty}
  {link : Option String}

theorem Event.of_completion? {e : Event} (h : e.completion? = some (i, link)) :
    ∃ found, e = .noted i (.met ⟨.updateLink found, link⟩) := by
  obtain _ | ⟨j, _ | ⟨_ | _ | _ | _ | _ | _, _⟩⟩ | _ := e <;> cases h
  exact ⟨_, rfl⟩

/-- The completions of one job are its answers. -/
theorem filter_completions (l : List Event) (i : Nat) :
    (completions l).filter (·.1 == i) = (updatesOf (stepsIn l i)).map fun u => (i, u.2) := by
  rw [completions, List.filter_filterMap, updatesOf, stepsIn, List.filterMap_filterMap,
    List.map_filterMap]
  refine List.filterMap_congr fun e _ => ?_
  obtain _ | ⟨j, m⟩ | _ := e
  · rfl
  · obtain _ | ⟨_ | _ | _ | _ | _ | _, _⟩ := m <;> by_cases hj : j = i <;>
      simp [Event.completion?, Event.step?, Job.update?, hj]
  · rfl

theorem mem_completions_iff :
    (i, link) ∈ completions l ↔ ∃ found, (found, link) ∈ updatesOf (stepsIn l i) := by
  have hfilter : (i, link) ∈ completions l ↔ (i, link) ∈ (completions l).filter (·.1 == i) := by
    simp
  rw [hfilter, filter_completions]
  simp

theorem Event.link_eq (last : Option String) (e : Event) :
    e.link last = (e.completion?.map (·.2)).getD last := by
  obtain _ | ⟨j, _ | ⟨_ | _ | _ | _ | _ | _, _⟩⟩ | _ := e <;> rfl

/-- The link that is remembered is that of the last answer. -/
theorem linkAfter_eq (l : List Event) : linkAfter l = previous (completions l) := by
  induction l using List.reverseRecOn with
  | nil => rfl
  | append_singleton l e ih =>
    rw [linkAfter_append, completions, List.filterMap_append, ← completions, List.foldl_cons,
      List.foldl_nil, Event.link_eq, ih]
    cases he : e.completion? with
    | none => simp [he]
    | some answer => simp [he, previous]

theorem exists_noted_of_completions {pre post : List (Nat × Option String)}
    (h : completions l = pre ++ (i, link) :: post) : ∃ before found after,
      l = before ++ .noted i (.met ⟨.updateLink found, link⟩) :: after ∧
        completions before = pre := by
  obtain ⟨l₁, l₂, rfl, rfl, h₂⟩ := List.filterMap_eq_append_iff.1 h
  obtain ⟨l₃, e, l₄, rfl, hnone, he, -⟩ := List.filterMap_eq_cons_iff.1 h₂
  obtain ⟨found, rfl⟩ := Event.of_completion? he
  refine ⟨l₁ ++ l₃, found, l₄, (List.append_assoc ..).symm, ?_⟩
  rw [completions, List.filterMap_append, List.filterMap_eq_nil_iff.2 hnone, List.append_nil]

/-- What the status reads of a run come to. -/
structure Inquired (target : String) (first : Option Supervision) (l : List Event)
    (x : WorkerHost) : Prop where
  /-- A read answers with the link for what it has read and looked up. -/
  links : ∀ pre i link post, completions l = pre ++ (i, link) :: post →
    ∃ branch, branchesOf (stepsIn l i) = [branch] ∧
      LinkFor target (previous pre) branch (lookupsOf (stepsIn l i)) link
  /-- A read answers once. -/
  once : ((completions l).map (·.1)).Nodup
  /-- The answer to a ping and a report have the link of their read. -/
  pongs : ∀ (i : Nat) s, .noted i (.met ⟨.post (.pong s), ()⟩) ∈ l →
    (i, s.reviewLink) ∈ completions l
  reports : ∀ (i : Nat) r, x.crowd.jobs[i]? = some (.ready (.done (some r))) →
    (i, r.status.reviewLink) ∈ completions l
  /-- A look-up is made by a read that has read the target branch, for that branch, and once. -/
  lookups : ∀ i, lookupsOf (stepsIn l i) = [] ∨ branchesOf (stepsIn l i) = [.ok target] ∧
    (∃ d, x.duties[i]? = some d ∧ d.isInquiry) ∧
      ∃ review, lookupsOf (stepsIn l i) = [(target, review)]
  /-- A look-up that is under way is such a one, and the first. -/
  looking : ∀ (i : Nat) branch next,
    x.crowd.jobs[i]? = some (.ready (.ask (.tree (.findReview branch)) next)) →
      branch = target ∧ branchesOf (stepsIn l i) = [.ok target] ∧ lookupsOf (stepsIn l i) = [] ∧
        ∃ d, x.duties[i]? = some d ∧ d.isInquiry
  /-- Whatever the repository and the look-ups answer, all reads can be completed. -/
  completed : ∀ answer : (q : HostStep) → q.Answer, ∃ (marks : List (Nat × Mark)) (y : WorkerHost),
    Run target first (l ++ marks.map fun e => .noted e.1 e.2) y ∧
      (∀ e ∈ marks, AnsweredBy answer e.2) ∧ ∀ (i : Nat) d, x.duties[i]? = some d → d.isInquiry →
        ∃ link, (i, link) ∈ completions (l ++ marks.map fun e => .noted e.1 e.2)

theorem Run.exists_duty_of_steps (h : Run target first l x) (hi : stepsIn l i ≠ []) :
    ∃ d, x.duties[i]? = some d := by
  obtain ⟨e, he⟩ := List.exists_mem_of_ne_nil _ hi
  exact h.exists_duty (mem_stepsIn_iff.1 he)

theorem Run.inquiryPath (h : Run target first l x) (i : Nat) :
    InquiryPath target (stepsIn l i) := by
  by_cases hi : stepsIn l i = []
  · rw [hi]
    exact .reading rfl rfl nofun
  · obtain ⟨d, hd⟩ := h.exists_duty_of_steps hi
    obtain ⟨s, -, hleads⟩ := h.exists_leads hd
    exact Duty.inquiryPath_of_leads hleads

/-- A job that has ended has answered, if it reads the status. -/
theorem Run.answered_of_done (h : Run target first l x) (hd : x.duties[i]? = some d)
    (hinquiry : d.isInquiry) {r : Option StatusReport}
    (hdone : x.crowd.jobs[i]? = some (.ready (.done r))) :
    ∃ link, (i, link) ∈ completions l ∧ ∀ s, r = some s → s.status.reviewLink = link := by
  obtain ⟨s, hs, hleads⟩ := h.exists_leads hd
  cases hs.symm.trans hdone
  have htranscript := hleads.transcript .done
  rw [List.append_nil] at htranscript
  obtain ⟨found, link, hmem, hlink⟩ := Duty.updates_of_transcript hinquiry htranscript
  exact ⟨link, mem_completions_iff.2 ⟨found, hmem⟩, hlink⟩

theorem Run.isInquiry_of_report (h : Run target first l x) {r : StatusReport}
    (hd : x.duties[i]? = some d) (hdone : x.crowd.jobs[i]? = some (.ready (.done (some r)))) :
    d.isInquiry := by
  cases d with
  | ping | report => rfl
  | save message =>
    obtain ⟨s, hs, hleads⟩ := h.exists_leads hd
    cases hs.symm.trans hdone
    have htranscript := hleads.transcript .done
    rw [Duty.job, Program.transcript_map_iff] at htranscript
    obtain ⟨_, hnone, -⟩ := htranscript
    cases hnone

/-- However many status reads overlap and whatever they are answered, they answer as if each were
made of what it has read itself and of the answer that came right before its own. -/
theorem Run.inquired (h : Run target first l x) : Inquired target first l x where
  links pre i link post hsplit := by
    obtain ⟨before, found, after, rfl, rfl⟩ := exists_noted_of_completions hsplit
    have hlink : link = found.linkAfter (linkAfter before) := h.told rfl
    have hstep := mem_stepsIn_iff.2 (List.mem_append_right before (List.mem_cons_self
      (l := after) (a := .noted i (.met ⟨.updateLink found, link⟩))))
    obtain ⟨branch, reviews, hfinds, hbranches, hlookups⟩ :=
      (h.inquiryPath i).finds (List.mem_filterMap.2 ⟨_, hstep, rfl⟩)
    refine ⟨branch, hbranches, ?_⟩
    rw [hlookups, hlink, linkAfter_eq]
    exact hfinds.linkFor _
  once := by
    refine List.nodup_iff_count_le_one.2 fun i => ?_
    rw [List.count, List.countP_map, List.countP_eq_length_filter]
    change ((completions l).filter (·.1 == i)).length ≤ 1
    rw [filter_completions, List.length_map]
    exact (h.inquiryPath i).length_updates_le
  pongs i s hmem := by
    have hpong : .pong s ∈ posts (stepsIn l i) :=
      List.mem_filterMap.2 ⟨_, mem_stepsIn_iff.2 hmem, rfl⟩
    exact mem_completions_iff.2 ((h.inquiryPath i).of_pong hpong)
  reports i r hdone := by
    obtain ⟨d, hd⟩ := h.exists_duty_of_job hdone
    obtain ⟨link, hmem, hlink⟩ := h.answered_of_done hd (h.isInquiry_of_report hd hdone) hdone
    rw [hlink r rfl]
    exact hmem
  lookups i := by
    refine (h.inquiryPath i).lookups.imp_right fun ⟨hbranches, review, hlookups⟩ => ?_
    have hsome : lookupsOf (stepsIn l i) ≠ [] := by simp [hlookups]
    obtain ⟨d, hd⟩ := h.exists_duty_of_steps fun hnil => hsome (by rw [hnil]; rfl)
    obtain ⟨s, -, hleads⟩ := h.exists_leads hd
    exact ⟨hbranches, ⟨d, hd, Duty.isInquiry_of_lookups hleads hsome⟩, review, hlookups⟩
  looking i branch next hi := by
    obtain ⟨d, hd⟩ := h.exists_duty_of_job hi
    obtain ⟨s, hs, hleads⟩ := h.exists_leads hd
    cases hs.symm.trans hi
    obtain ⟨hbranch, hbranches, hlookups, hinquiry⟩ := Duty.looking_of_leads hleads
    exact ⟨hbranch, hbranches, hlookups, d, hd, hinquiry⟩
  completed answer := by
    obtain ⟨marks, y, hrun, hduties, hanswered, hdone⟩ := h.finish answer
    refine ⟨marks, y, hrun, hanswered, fun i d hd hinquiry => ?_⟩
    rw [← hduties] at hd
    obtain ⟨s, hs, -⟩ := hrun.exists_leads hd
    obtain ⟨r, rfl⟩ := hdone s (List.mem_of_getElem? hs)
    obtain ⟨link, hmem, -⟩ := hrun.answered_of_done hd hinquiry hs
    exact ⟨link, hmem⟩

/-- Two reads overlap on the target branch, and the one that began first is completed last. A third
one cannot read the branch. -/
theorem inquired_overlapping : ∃ l x, Run "updates" none l x ∧
    completions l = [(1, none), (0, some "pull/7"), (2, some "pull/7")] ∧
      Inquired "updates" none l x := by
  have started : Run "updates" none _ _ := ((Run.idle.start .report).start .ping).start .report
  have first := (started.aside (i := 0) rfl rfl false rfl).work (i := 0) (.take rfl rfl) rfl trivial
  have second := (first.aside (i := 1) rfl rfl false rfl).work (i := 1) (.wait rfl rfl) rfl trivial
  have read := (second.work (i := 0) (.begin rfl) rfl trivial).work (i := 0)
    (.answered rfl (.ok "updates")) rfl trivial
  have passed := read.work (i := 0) (.pass rfl rfl) rfl trivial
  have read' := (passed.work (i := 1) (.begin rfl) rfl trivial).work (i := 1)
    (.answered rfl (.ok "updates")) rfl trivial
  have failed := (read'.work (i := 1) (.free rfl rfl) rfl trivial).aside (i := 1) rfl rfl
    (.error (.failed "no network")) trivial
  have answered := failed.aside (i := 1) rfl rfl none rfl
  have found := answered.aside (i := 0) rfl rfl (.ok (some "pull/7")) trivial
  have answered' := found.aside (i := 0) rfl rfl (some "pull/7") rfl
  have third := (answered'.aside (i := 2) rfl rfl false rfl).work (i := 2) (.take rfl rfl) rfl
    trivial
  have unread := (third.work (i := 2) (.begin rfl) rfl trivial).work (i := 2)
    (.answered rfl (.error "detached")) rfl trivial
  have freed := unread.work (i := 2) (.free rfl rfl) rfl trivial
  have kept := freed.aside (i := 2) rfl rfl (some "pull/7") rfl
  exact ⟨_, _, kept, rfl, kept.inquired⟩

end WorkerHost
end PublishDesk
