import PublishDesk.Proofs.Host.CrewRuns
import PublishDesk.Proofs.Host.JobSteps

/-!
# A host whose jobs go on side by side

A host takes messages at any time, and its jobs make their steps whenever they like, so a ping or a
save request may come between any two steps. `HostCrowd.Run` holds all runs of such a host. The runs
of a `HostCrew`, whose jobs take turns, are among them (`HostCrowd.Hosts`).
-/

namespace PublishDesk

open Job

/-! ## What a job does last -/

namespace Job

variable {target message : String} {l : List Made} {p p₀ : Job Unit} {u : Unit}

/-- The next ping may start a job again. -/
abbrev pollEnd : Made := ⟨.endPoll, ()⟩

abbrev posting (m : Message) : Made := ⟨.post m, ()⟩

theorem endPoll_not_mem (l : List (Exchange TreeStep TreeStep.Answer)) :
    pollEnd ∉ stepsOfWorkflow l := by
  intro h
  obtain ⟨e, -, he⟩ := List.mem_map.1 h
  cases he

theorem transcript_poll_end (h : (poll target).Transcript l u) :
    ∃ front s, l = front ++ [pollEnd, posting (.pong s)] ∧ pollEnd ∉ front ∧ posts front = [] := by
  obtain ⟨up, l', status, link, s, -, rfl⟩ := transcript_poll h
  refine ⟨⟨.workerUp, up⟩ :: (stepsOfWorkflow l' ++ [⟨.updateLink status, link⟩]), s, ?_, ?_, ?_⟩
  · rw [List.cons_append, List.append_assoc]
    rfl
  · intro hend
    obtain hend | hend := List.mem_cons.1 hend
    · cases hend
    · obtain hend | hend := List.mem_append.1 hend
      · exact endPoll_not_mem l' hend
      · cases List.mem_singleton.1 hend
  · rw [← List.singleton_append, posts_append, posts_append, posts_stepsOfWorkflow]
    rfl

/-- How far a job has come that answers a ping: it lets the next one in before it posts its
answer. -/
inductive PollPath : List Made → Prop
  | reading {l : List Made} : pollEnd ∉ l → posts l = [] → PollPath l
  | cleared {l : List Made} : pollEnd ∉ l → posts l = [] → PollPath (l ++ [pollEnd])
  | posted {l : List Made} (s : HostStatus) : pollEnd ∉ l → posts l = [] →
    PollPath (l ++ [pollEnd, posting (.pong s)])

theorem pollPath_of_leads (h : (poll target).Leads l p) : PollPath l := by
  obtain ⟨rest, u, hrest⟩ := Program.exists_transcript p
  obtain ⟨front, s, hl, hend, hposts⟩ := transcript_poll_end (h.transcript hrest)
  obtain ⟨as, rfl, -⟩ | ⟨cs, rfl, htail⟩ := List.append_eq_append_iff.1 hl
  · rw [posts_append] at hposts
    exact .reading (fun hl => hend (List.mem_append_left _ hl)) (List.append_eq_nil_iff.1 hposts).1
  · obtain ⟨rfl, -⟩ | ⟨cs, rfl, hpost⟩ := List.cons_eq_append_iff.1 htail
    · rw [List.append_nil]
      exact .reading hend hposts
    · obtain ⟨rfl, -⟩ | ⟨cs, rfl, hnil⟩ := List.cons_eq_append_iff.1 hpost
      · exact .cleared hend hposts
      · obtain ⟨rfl, -⟩ := List.append_eq_nil_iff.1 hnil.symm
        exact .posted s hend hposts

theorem PollPath.posts_eq_nil (h : PollPath l) (hend : pollEnd ∉ l) : posts l = [] := by
  cases h with
  | reading _ hposts => exact hposts
  | cleared => simp at hend
  | posted => simp at hend

theorem PollPath.of_pollEnd (h : PollPath (l ++ [pollEnd])) : pollEnd ∉ l := by
  generalize hl : l ++ [pollEnd] = l' at h
  cases h with
  | reading hend _ => simp [← hl] at hend
  | cleared hend _ => exact (List.append_inj' hl rfl).1 ▸ hend
  | @posted front s _ _ =>
    rw [show [pollEnd, posting (.pong s)] = [pollEnd] ++ [posting (.pong s)] from rfl,
      ← List.append_assoc] at hl
    cases (List.append_inj' hl rfl).2

theorem PollPath.of_posting {m : Message} (h : PollPath (l ++ [posting m])) :
    pollEnd ∈ l ∧ posts l = [] ∧ ∃ s, m = .pong s := by
  generalize hl : l ++ [posting m] = l' at h
  cases h with
  | reading _ hposts =>
    rw [← hl, posts_append] at hposts
    cases (List.append_eq_nil_iff.1 hposts).2
  | cleared => cases (List.append_inj' hl rfl).2
  | @posted front s _ hposts =>
    rw [show [pollEnd, posting (.pong s)] = [pollEnd] ++ [posting (.pong s)] from rfl,
      ← List.append_assoc] at hl
    obtain ⟨rfl, hm⟩ := List.append_inj' hl rfl
    cases hm
    refine ⟨by simp, ?_, s, rfl⟩
    rw [posts_append, hposts]
    rfl

theorem pollEnd_of_leads_save (h : (save target message).Leads l p) : pollEnd ∉ l := by
  obtain ⟨rest, u, hrest⟩ := Program.exists_transcript p
  obtain ⟨l', o, -, hl⟩ := transcript_save_iff.1 (h.transcript hrest)
  intro hend
  obtain hend | hend := List.mem_append.1 (hl ▸ List.mem_append_left rest hend)
  · exact endPoll_not_mem l' hend
  · cases List.mem_singleton.1 hend

/-- A job whose last step is to post a message has ended when it has posted it. -/
theorem posts_of_leads {P : Message → Prop}
    (hlast : ∀ l u, p₀.Transcript l u →
      ∃ front m, l = front ++ [posting m] ∧ posts front = [] ∧ P m)
    (h : p₀.Leads l p) :
    p = .done () ∧ (∃ m, posts l = [m] ∧ P m) ∨ p ≠ .done () ∧ posts l = [] := by
  obtain ⟨rest, u, hrest⟩ := Program.exists_transcript p
  obtain ⟨front, m, hl, hposts, hm⟩ := hlast _ _ (h.transcript hrest)
  obtain rfl | ⟨rest, e, rfl⟩ := List.eq_nil_or_concat rest
  · rw [List.append_nil] at hl
    refine .inl ⟨h.eq_done (by simpa using h.transcript hrest), m, ?_, hm⟩
    rw [hl, posts_append, hposts]
    rfl
  · refine .inr ⟨?_, ?_⟩
    · rintro rfl
      have hnil := (Program.transcript_done_iff.1 hrest).1
      simp at hnil
    · rw [List.concat_eq_append, ← List.append_assoc] at hl
      rw [← (List.append_inj' hl rfl).1, posts_append] at hposts
      exact (List.append_eq_nil_iff.1 hposts).1

end Job

namespace Origin

variable {target : String} {l : List Made} {p : Job Unit}

/-- The kind of the message that a job posts. -/
def answerKind : Origin → Kind
  | .ping => .pong
  | .save _ _ => .saveResult

/-- A job posts one message, and has ended then. -/
theorem posts_of_leads {o : Origin} (h : (o.job target).Leads l p) :
    p = .done () ∧ (∃ m, posts l = [m] ∧ m.kind = o.answerKind) ∨ p ≠ .done () ∧ posts l = [] := by
  refine Job.posts_of_leads (fun l u hl => ?_) h
  cases o with
  | ping =>
    obtain ⟨front, s, rfl, -, hposts⟩ := transcript_poll_end hl
    refine ⟨front ++ [pollEnd], .pong s, ?_, ?_, rfl⟩
    · rw [List.append_assoc]
      rfl
    · rw [posts_append, hposts]
      rfl
  | save caller message =>
    obtain ⟨l', o, -, rfl⟩ := transcript_save_iff.1 hl
    exact ⟨_, _, rfl, posts_stepsOfWorkflow l', rfl⟩

end Origin

/-! ## The host -/

structure HostCrowd where
  crowd : Crowd Unit := {}
  /-- What each job of the crowd has been started for. The saves are numbered. -/
  origins : List Origin := []
  /-- Whether a job that answers a ping is under way. -/
  polling : Bool := false

namespace HostCrowd

/-- How many saves have been requested. -/
def saves (x : HostCrowd) : Nat := x.origins.countP (· != .ping)

def start (target : String) (o : Origin) (x : HostCrowd) : HostCrowd :=
  { x with crowd := x.crowd.start (o.job target), origins := x.origins ++ [o] }

/-- Take a message. A ping starts no job while another one is being answered. -/
def handle (target : String) (m : Message) (x : HostCrowd) : HostCrowd :=
  match m with
  | .ping => if x.polling then x else start target .ping { x with polling := true }
  | .requestSave message => start target (.save x.saves message) x
  | _ => x

/-- The crowd has made a step, of which this is noted. -/
def note (c : Crowd Unit) (m : Mark) (x : HostCrowd) : HostCrowd :=
  { x with crowd := c, polling := m.polling x.polling }

/-- The steps that a job has made. -/
def steps (x : HostCrowd) (i : Nat) : List Made := Mark.stepsOf (Crowd.marksOf x.crowd.log i)

/-- What is noted of a host: the messages that it takes, and what its jobs do. -/
inductive Event where
  | taken (m : Message)
  | noted (number : Nat) (m : Mark)

inductive Run (target : String) : List Event → HostCrowd → Prop
  | idle : Run target [] {}
  | take {l : List Event} {x : HostCrowd} (h : Run target l x) (m : Message) :
    Run target (l ++ [.taken m]) (x.handle target m)
  | work {l : List Event} {x : HostCrowd} {c : Crowd Unit} {i : Nat} {m : Mark}
    (h : Run target l x) (hs : Crowd.Step i x.crowd c) (hm : c.log = x.crowd.log ++ [(i, m)]) :
    Run target (l ++ [.noted i m]) (x.note c m)

structure Sound (target : String) (x : HostCrowd) : Prop where
  follows : Crowd.Follows (x.origins.map (·.job target)) x.crowd
  orderly : ∃ l, Crowd.Orderly x.crowd l
  numbered : ∀ (i : Nat) k message, x.origins[i]? = some (.save k message) → k < x.saves

variable {target : String} {x : HostCrowd} {c : Crowd Unit} {i j : Nat} {m : Mark}
  {o o' : Origin} {l : List Event}

theorem sound_idle : Sound target {} := ⟨.nil, ⟨_, .nil⟩, nofun⟩

theorem getElem?_start (hi : (x.start target o).origins[i]? = some o') :
    x.origins[i]? = some o' ∨ i = x.origins.length ∧ o' = o := by
  rw [start, List.getElem?_append] at hi
  split at hi
  · exact .inl hi
  · next hlt =>
    rw [List.getElem?_singleton] at hi
    split at hi
    · next hzero => exact .inr ⟨by omega, (Option.some.inj hi).symm⟩
    · cases hi

theorem getElem?_start_of_some (hi : x.origins[i]? = some o') :
    (x.start target o).origins[i]? = some o' :=
  (List.getElem?_append_left (List.getElem?_eq_some_iff.1 hi).1).trans hi

theorem getElem?_handle {m : Message} (hi : (x.handle target m).origins[i]? = some o) :
    x.origins[i]? = some o ∨ i = x.origins.length ∧
      (o = .ping ∨ ∃ message, m = .requestSave message ∧ o = .save x.saves message) := by
  cases m with
  | ping =>
    rw [handle] at hi
    split at hi
    · exact .inl hi
    · exact (getElem?_start hi).imp_right fun ⟨hnew, ho⟩ => ⟨hnew, .inl ho⟩
  | requestSave message =>
    exact (getElem?_start hi).imp_right fun ⟨hnew, ho⟩ => ⟨hnew, .inr ⟨message, rfl, ho⟩⟩
  | pong | saveResult => exact .inl hi

theorem origins_handle (m : Message) (x : HostCrowd) :
    x.origins <+: (x.handle target m).origins := by
  cases m with
  | ping =>
    rw [handle]
    split
    · exact List.prefix_rfl
    · exact List.prefix_append ..
  | requestSave message => exact List.prefix_append ..
  | pong | saveResult => exact List.prefix_rfl

theorem getElem?_handle_of_some {m : Message} (hi : x.origins[i]? = some o) :
    (x.handle target m).origins[i]? = some o := by
  obtain ⟨hlt, rfl⟩ := List.getElem?_eq_some_iff.1 hi
  exact List.prefix_iff_getElem?.1 (x.origins_handle m) i hlt

theorem crowd_handle (target : String) (m : Message) (x : HostCrowd) :
    (x.handle target m).crowd = x.crowd ∨ ∃ p, (x.handle target m).crowd = x.crowd.start p := by
  cases m with
  | ping =>
    rw [handle]
    split
    · exact .inl rfl
    · exact .inr ⟨_, rfl⟩
  | requestSave message => exact .inr ⟨_, rfl⟩
  | pong | saveResult => exact .inl rfl

theorem log_handle (m : Message) (x : HostCrowd) :
    (x.handle target m).crowd.log = x.crowd.log := by
  obtain hcrowd | ⟨p, hcrowd⟩ := x.crowd_handle target m
  · rw [hcrowd]
  · rw [hcrowd]
    rfl

theorem getElem?_jobs_handle {m : Message} {p : Standing Unit} (hi : x.crowd.jobs[i]? = some p) :
    (x.handle target m).crowd.jobs[i]? = some p := by
  obtain hcrowd | ⟨q, hcrowd⟩ := x.crowd_handle target m
  · exact hcrowd ▸ hi
  · rw [hcrowd]
    exact (List.getElem?_append_left (List.getElem?_eq_some_iff.1 hi).1).trans hi

theorem Sound.start (H : Sound target x)
    (ho : ∀ k message, o = .save k message → k = x.saves) : Sound target (x.start target o) where
  follows := by
    rw [HostCrowd.start, List.map_append]
    exact H.follows.start _
  orderly := by
    obtain ⟨l, hl⟩ := H.orderly
    exact ⟨l, hl.start (o.keeps_job target)⟩
  numbered i k message hi := by
    have hsaves : (x.start target o).saves = x.saves + [o].countP (· != .ping) :=
      List.countP_append
    obtain hi | ⟨-, hi⟩ := getElem?_start hi
    · exact hsaves ▸ Nat.lt_add_right _ (H.numbered i k message hi)
    · rw [hsaves, ← hi, ho k message hi.symm]
      exact Nat.lt_succ_self _

theorem Sound.handle (H : Sound target x) (m : Message) : Sound target (x.handle target m) := by
  cases m with
  | ping =>
    rw [HostCrowd.handle]
    split
    · exact H
    · exact Sound.start ⟨H.follows, H.orderly, H.numbered⟩ nofun
  | requestSave message =>
    refine H.start fun k message' ho => ?_
    cases ho
    rfl
  | pong | saveResult => exact H

theorem Sound.note (H : Sound target x) (hs : Crowd.Step i x.crowd c) :
    Sound target (x.note c m) := by
  obtain ⟨l, hl⟩ := H.orderly
  exact ⟨H.follows.step hs, hl.step hs, H.numbered⟩

theorem Run.sound (h : Run target l x) : Sound target x := by
  induction h with
  | idle => exact sound_idle
  | take _ m ih => exact ih.handle m
  | work _ hs _ ih => exact ih.note hs

/-! ## The steps of one job -/

theorem Sound.exists_leads (H : Sound target x) (hi : x.origins[i]? = some o) :
    ∃ s, x.crowd.jobs[i]? = some s ∧ (o.job target).Leads (x.steps i) s.rest := by
  have hprogram : (x.origins.map (·.job target))[i]? = some (o.job target) := by
    rw [List.getElem?_map, hi]
    rfl
  obtain ⟨s, hs, hist⟩ := H.follows.exists_history hprogram
  exact ⟨s, hs, hist.leads⟩

/-- A job has ended if and only if it has posted its message. -/
theorem Sound.done_iff (H : Sound target x) (hi : x.origins[i]? = some o) :
    x.crowd.jobs[i]? = some (.ready (.done ())) ↔ posts (x.steps i) ≠ [] := by
  obtain ⟨s, hs, hleads⟩ := H.exists_leads hi
  obtain ⟨l, hl⟩ := H.orderly
  rw [hs]
  obtain ⟨hdone, m, hposts, -⟩ | ⟨hrest, hposts⟩ := Origin.posts_of_leads hleads
  · rw [hl.eq_of_rest hs hdone, hposts]
    exact ⟨fun _ => List.cons_ne_nil _ _, fun _ => rfl⟩
  · refine ⟨fun h => ?_, fun h => absurd hposts h⟩
    cases h
    exact absurd rfl hrest

theorem Sound.origin_of_job (H : Sound target x) {s : Standing Unit}
    (hi : x.crowd.jobs[i]? = some s) : ∃ o, x.origins[i]? = some o := by
  have hlt := H.follows.length_eq ▸ (List.getElem?_eq_some_iff.1 hi).1
  rw [List.length_map] at hlt
  exact ⟨_, List.getElem?_eq_getElem hlt⟩

theorem Sound.exists_origin (H : Sound target x) (hs : Crowd.Step i x.crowd c) :
    ∃ o, x.origins[i]? = some o := by
  obtain ⟨m, s, s', hi, -⟩ := hs.inv
  exact H.origin_of_job hi

theorem steps_note (hm : c.log = x.crowd.log ++ [(i, m)]) (j : Nat) :
    (x.note c m).steps j = x.steps j ++ if j = i then Mark.stepsOf [m] else [] := by
  rw [steps, note, hm, Crowd.marksOf_append, Mark.stepsOf_append, steps]
  by_cases hj : j = i
  · subst hj
    simp [Crowd.marksOf]
  · rw [if_neg hj, Crowd.marksOf_eq_nil (l := [(i, m)]) (by simpa using Ne.symm hj)]
    rfl

theorem steps_handle (m : Message) (x : HostCrowd) (j : Nat) :
    (x.handle target m).steps j = x.steps j := by
  rw [steps, log_handle]
  rfl

theorem Sound.steps_eq_nil (H : Sound target x) (hi : x.origins.length ≤ i) : x.steps i = [] := by
  have hnone : Crowd.marksOf x.crowd.log i = [] := by
    refine Crowd.marksOf_eq_nil fun e he heq => ?_
    have hlt := H.follows.noted e he
    rw [List.length_map] at hlt
    omega
  rw [steps, hnone]
  rfl

theorem posts_stepsOf (m : Mark) : posts (Mark.stepsOf [m]) = m.posted?.toList := by
  obtain _ | ⟨_ | _ | _ | _ | _ | _, _⟩ := m <;> rfl

/-! ## All jobs come to an end -/

theorem Run.of_crowd (h : Run target l x)
    (hc : Relation.ReflTransGen (fun c c' => ∃ i, Crowd.Step i c c') x.crowd c) :
    ∃ (marks : List (Nat × Mark)), c.log = x.crowd.log ++ marks ∧
      Run target (l ++ marks.map fun e => .noted e.1 e.2)
        { x with crowd := c, polling := (marks.map (·.2)).foldl Mark.polling x.polling } := by
  induction hc with
  | refl => exact ⟨[], (List.append_nil _).symm, (List.append_nil l).symm ▸ h⟩
  | tail _ hs ih =>
    obtain ⟨marks, hlog, hrun⟩ := ih
    obtain ⟨i, hs⟩ := hs
    obtain ⟨m, -, -, -, -, hm, -⟩ := hs.inv
    refine ⟨marks ++ [(i, m)], by rw [hm, hlog, List.append_assoc], ?_⟩
    have hnext := hrun.work hs hm
    rw [List.map_append, ← List.append_assoc, List.map_append, List.foldl_append]
    exact hnext

/-- If no more messages come and every call has an answer, all jobs end. -/
theorem Run.finish (h : Run target l x) : ∃ (marks : List (Nat × Mark)) (y : HostCrowd),
    Run target (l ++ marks.map fun e => .noted e.1 e.2) y ∧ y.origins = x.origins ∧
      y.crowd.log = x.crowd.log ++ marks ∧ ∀ s ∈ y.crowd.jobs, s = .ready (.done ()) := by
  obtain ⟨ledger, hl⟩ := h.sound.orderly
  obtain ⟨c, hc, hdone⟩ := hl.exists_finish
  obtain ⟨marks, hlog, hrun⟩ := h.of_crowd hc
  exact ⟨marks, _, hrun, rfl, hlog, fun s hs => (hdone s hs).choose_spec⟩

/-! ## Jobs that take turns -/

/-- A host whose jobs take turns stands as one whose jobs go on side by side. -/
structure Hosts (target : String) (c : HostCrew) (x : HostCrowd) : Prop where
  target_eq : c.desk.target = target
  crew : c.Matches x.crowd
  polling : c.desk.host.polling = x.polling

variable {d d' : HostCrew}

theorem Hosts.handle (H : Hosts target d x) (m : Message) :
    Hosts target (HostCrew.handle m d) (x.handle target m) := by
  cases m with
  | ping =>
    rw [HostCrew.handle, HostCrowd.handle, H.polling]
    split
    · exact H
    · refine ⟨H.target_eq, ?_, rfl⟩
      rw [H.target_eq]
      have hcrew : Crew.Matches (HostCrew.setHost { d.desk.host with polling := true } d) x.crowd :=
        H.crew.setDesk rfl rfl
      exact hcrew.start _
  | requestSave message =>
    refine ⟨H.target_eq, ?_, H.polling⟩
    rw [Origin.handle_requestSave x.saves, H.target_eq]
    exact H.crew.start _
  | pong | saveResult => exact H

theorem Hosts.turn (H : Hosts target d x) (h : Run target l x) (ht : d.turn? = some d') :
    ∃ (marks : List (Nat × Mark)) (y : HostCrowd),
      Run target (l ++ marks.map fun e => .noted e.1 e.2) y ∧ Hosts target d' y := by
  obtain ⟨ledger, hl⟩ := h.sound.orderly
  obtain ⟨crowd, marks, hsteps, hlog, hcrew, htarget, -, -, hpolling, -⟩ := H.crew.turn hl ht
  obtain ⟨marks', hlog', hrun⟩ := h.of_crowd hsteps
  obtain rfl : marks' = marks := List.append_cancel_left (hlog'.symm.trans hlog)
  exact ⟨_, _, hrun, htarget.trans H.target_eq, hcrew, by rw [hpolling, H.polling]⟩

end HostCrowd
end PublishDesk
