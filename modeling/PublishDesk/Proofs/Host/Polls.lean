import Mathlib.Data.List.Perm.Subperm
import PublishDesk.Proofs.Host.HostCrowd

/-!
# No ping is lost

A ping that comes while another one is being answered starts no job. Still it is answered: the job
that is under way lets the next ping in before it posts its answer, so an answer is posted after
every ping. `HostCrowd.Polled` is the invariant, and `HostCrowd.Run.polls` says what it comes to,
however the pings, the saves and the steps of their jobs are mixed.
-/

namespace PublishDesk.HostCrowd

open Job

/-- A job answers a ping, and has not yet let the next one in. -/
def Polling (x : HostCrowd) (i : Nat) : Prop :=
  x.origins[i]? = some .ping ∧ pollEnd ∉ x.steps i

/-- No job is left that answers a ping. -/
def Idle (x : HostCrowd) : Prop :=
  ∀ i : Nat, x.origins[i]? = some .ping → x.crowd.jobs[i]? = some (.ready (.done ()))

def Event.isPing : Event → Bool
  | .taken .ping => true
  | _ => false

/-- The job that has posted the answer to a ping. -/
def Event.poster? : Event → Option Nat
  | .noted i (.met ⟨.post (.pong _), _⟩) => some i
  | _ => none

def pings (l : List Event) : Nat := l.countP Event.isPing

/-- The jobs that have posted answers to pings, in order. -/
def posters (l : List Event) : List Nat := l.filterMap Event.poster?

variable {target : String} {x y : HostCrowd} {c : Crowd Unit} {l : List Event} {i j : Nat}
  {m : Mark}

theorem Event.eq_of_poster? {e : Event} (h : e.poster? = some i) :
    ∃ s, e = .noted i (.met (posting (.pong s))) := by
  unfold poster? at h
  split at h
  · cases h
    exact ⟨_, rfl⟩
  · cases h

/-! ## The invariant -/

/-- The flag is set as long as a job has not let the next ping in, and only one job has not. -/
structure Flagged (x : HostCrowd) : Prop where
  isSet : x.polling → ∃ i, x.Polling i
  single : ∀ i, x.Polling i → x.polling ∧ ∀ j, x.Polling j → j = i

/-- Every answer has been posted by a job of its own. -/
structure Counted (l : List Event) (x : HostCrowd) : Prop where
  started : x.origins.count .ping ≤ pings l
  nodup : (posters l).Nodup
  posted : ∀ i ∈ posters l, x.origins[i]? = some .ping ∧ posts (x.steps i) ≠ []

/-- Some job has not posted its answer to a ping. -/
def Owes (x : HostCrowd) : Prop := ∃ i : Nat, x.origins[i]? = some .ping ∧ posts (x.steps i) = []

/-- Every ping has an answer that was posted after it, or will have one. -/
def Awaited (l : List Event) (x : HostCrowd) : Prop :=
  ∀ before after, l = before ++ .taken .ping :: after → posters after ≠ [] ∨ x.Owes

structure Polled (target : String) (l : List Event) (x : HostCrowd) : Prop where
  sound : Sound target x
  flagged : Flagged x
  counted : Counted l x
  awaited : Awaited l x

theorem posters_append (l l' : List Event) : posters (l ++ l') = posters l ++ posters l' :=
  List.filterMap_append

theorem pings_append (l l' : List Event) : pings (l ++ l') = pings l + pings l' :=
  List.countP_append

theorem Flagged.congr (H : Flagged x) (hpolling : y.polling = x.polling)
    (h : ∀ i, y.Polling i ↔ x.Polling i) : Flagged y where
  isSet hset := (H.isSet (hpolling ▸ hset)).imp fun i hi => (h i).2 hi
  single i hi := by
    obtain ⟨hset, hall⟩ := H.single i ((h i).1 hi)
    exact ⟨hpolling ▸ hset, fun j hj => hall j ((h j).1 hj)⟩

theorem Counted.snoc (H : Counted l x) {e : Event} (he : e.poster? = none)
    (hstarted : y.origins.count .ping ≤ pings (l ++ [e]))
    (hposted : ∀ i, x.origins[i]? = some .ping → posts (x.steps i) ≠ [] →
      y.origins[i]? = some .ping ∧ posts (y.steps i) ≠ []) : Counted (l ++ [e]) y := by
  have hposters : posters (l ++ [e]) = posters l := by
    rw [posters_append, show posters [e] = [] from List.filterMap_cons_none he, List.append_nil]
  refine ⟨hstarted, hposters ▸ H.nodup, fun i hi => ?_⟩
  obtain ⟨ho, hposts⟩ := H.posted i (hposters ▸ hi)
  exact hposted i ho hposts

theorem Awaited.snoc (H : Awaited l x) {e : Event} (hping : e = .taken .ping → y.Owes)
    (howes : x.Owes → e.poster? ≠ none ∨ y.Owes) : Awaited (l ++ [e]) y := by
  intro before after h
  obtain rfl | ⟨rest, e', rfl⟩ := List.eq_nil_or_concat after
  · obtain ⟨-, he⟩ := List.append_inj' h rfl
    exact .inr (hping (List.singleton_inj.1 he))
  · rw [List.concat_eq_append] at h ⊢
    rw [← List.cons_append, ← List.append_assoc] at h
    obtain ⟨hl, he⟩ := List.append_inj' h rfl
    obtain rfl := List.singleton_inj.1 he
    rw [posters_append]
    obtain hrest | hx := H before rest hl
    · exact .inl fun hnone => hrest (List.append_eq_nil_iff.1 hnone).1
    · obtain he | hy := howes hx
      · refine .inl fun hnone => he ?_
        simpa [posters] using (List.append_eq_nil_iff.1 hnone).2
      · exact .inr hy

theorem polled_idle : Polled target [] {} where
  sound := sound_idle
  flagged := ⟨nofun, nofun⟩
  counted := ⟨Nat.le_refl 0, List.nodup_nil, nofun⟩
  awaited before after h := by simp at h

/-! ## Messages -/

/-- While a job has not let the next ping in, it owes an answer. -/
theorem Sound.owes_of_polling (H : Sound target x) (h : x.Polling i) : x.Owes := by
  obtain ⟨s, -, hleads⟩ := H.exists_leads h.1
  exact ⟨i, h.1, (pollPath_of_leads hleads).posts_eq_nil h.2⟩

theorem Owes.start (h : x.Owes) (o : Origin) : (x.start target o).Owes := by
  obtain ⟨i, hi, hposts⟩ := h
  exact ⟨i, getElem?_start_of_some hi, hposts⟩

theorem Owes.handle (h : x.Owes) (m : Message) : (x.handle target m).Owes := by
  obtain ⟨i, hi, hposts⟩ := h
  exact ⟨i, getElem?_handle_of_some hi, (steps_handle m x i).symm ▸ hposts⟩

theorem Flagged.start_ping (H : Flagged x) (hx : Sound target x) (hpolling : x.polling = false) :
    Flagged (start target .ping { x with polling := true }) := by
  have hsteps : x.steps x.origins.length = [] := hx.steps_eq_nil (Nat.le_refl _)
  have hnew (i : Nat) (hi : (start target .ping { x with polling := true }).Polling i) :
      i = x.origins.length := by
    obtain hold | ⟨hnew, -⟩ := getElem?_start hi.1
    · have hset := (H.single i ⟨hold, hi.2⟩).1
      rw [hpolling] at hset
      cases hset
    · exact hnew
  refine ⟨fun _ => ⟨x.origins.length, List.getElem?_concat_length, ?_⟩, fun i hi => ?_⟩
  · intro hend
    change pollEnd ∈ x.steps x.origins.length at hend
    rw [hsteps] at hend
    cases hend
  · exact ⟨rfl, fun j hj => (hnew j hj).trans (hnew i hi).symm⟩

theorem Flagged.start_save (H : Flagged x) (k : Nat) (message : String) :
    Flagged (x.start target (.save k message)) := by
  refine H.congr rfl fun i => ⟨fun hi => ⟨?_, hi.2⟩, fun hi => ⟨getElem?_start_of_some hi.1, hi.2⟩⟩
  obtain hold | ⟨-, hnew⟩ := getElem?_start hi.1
  · exact hold
  · cases hnew

theorem Counted.take (H : Counted l x) {m : Message}
    (hstarted : y.origins.count .ping ≤ x.origins.count .ping + pings [.taken m])
    (horigins : ∀ i : Nat, x.origins[i]? = some .ping → y.origins[i]? = some .ping)
    (hsteps : ∀ i, y.steps i = x.steps i) : Counted (l ++ [.taken m]) y := by
  refine H.snoc rfl ?_ fun i hi hposts => ⟨horigins i hi, hsteps i ▸ hposts⟩
  rw [pings_append]
  exact Nat.le_trans hstarted (Nat.add_le_add_right H.started _)

theorem Polled.take (H : Polled target l x) (m : Message) :
    Polled target (l ++ [.taken m]) (x.handle target m) := by
  have hsound := H.sound.handle m
  have hstart (o : Origin) : (x.start target o).origins.count .ping =
      x.origins.count .ping + [o].count .ping := List.count_append
  cases m with
  | ping =>
    by_cases hset : x.polling
    · have hsame : x.handle target .ping = x := if_pos hset
      rw [hsame]
      refine ⟨H.sound, H.flagged, H.counted.take (Nat.le_add_right _ _) (fun _ => id) fun _ => rfl,
        H.awaited.snoc (fun _ => ?_) .inr⟩
      -- The job that is under way answers this ping too.
      obtain ⟨i, hi⟩ := H.flagged.isSet hset
      exact H.sound.owes_of_polling hi
    · have hstarts : x.handle target .ping = start target .ping { x with polling := true } :=
        if_neg hset
      rw [hstarts] at hsound ⊢
      have hflagged := H.flagged.start_ping H.sound (eq_false_of_ne_true hset)
      have hkept (i : Nat) (hi : x.origins[i]? = some .ping) :
          (x.start target .ping).origins[i]? = some .ping := getElem?_start_of_some hi
      refine ⟨hsound, hflagged, H.counted.take (Nat.le_of_eq (hstart .ping)) hkept fun _ => rfl,
        H.awaited.snoc (fun _ => ?_) fun h => ?_⟩
      · obtain ⟨i, hi⟩ := hflagged.isSet rfl
        exact hsound.owes_of_polling hi
      · exact .inr (Owes.start (x := { x with polling := true }) h .ping)
  | requestSave message =>
    refine ⟨hsound, H.flagged.start_save _ _, H.counted.take (Nat.le_of_eq (hstart _))
      (fun _ => getElem?_start_of_some) fun _ => rfl, H.awaited.snoc nofun fun h => ?_⟩
    exact .inr (h.start _)
  | pong | saveResult =>
    exact ⟨hsound, H.flagged, H.counted.take (Nat.le_add_right _ _) (fun _ => id) fun _ => rfl,
      H.awaited.snoc nofun .inr⟩

/-! ## Steps of the jobs -/

/-- What a step of a job is to the pings: it lets the next one in, it posts an answer, or it is of
no account. -/
inductive Turn (x : HostCrowd) (i : Nat) : Mark → Prop
  | clears : x.Polling i → Turn x i (.met pollEnd)
  | answers (s : HostStatus) : x.origins[i]? = some .ping → pollEnd ∈ x.steps i →
    posts (x.steps i) = [] → Turn x i (.met (posting (.pong s)))
  | aside {m : Mark} : pollEnd ∉ Mark.stepsOf [m] → (Event.noted i m).poster? = none →
    (x.origins[i]? = some .ping → posts (Mark.stepsOf [m]) = []) → Turn x i m

theorem turn_of_poll (hi : x.origins[i]? = some .ping)
    (hpath : PollPath (x.steps i ++ Mark.stepsOf [m])) : Turn x i m := by
  obtain r | ⟨⟨_ | _ | _ | _ | _ | msg, a⟩⟩ := m
  case met.endPoll => exact .clears ⟨hi, hpath.of_pollEnd⟩
  case met.post =>
    obtain ⟨hend, hposts, s, rfl⟩ := PollPath.of_posting hpath
    exact .answers s hi hend hposts
  all_goals exact .aside (by simp [Mark.stepsOf]) rfl fun _ => rfl

theorem turn_of_save {k : Nat} {message : String} {p : Job Unit}
    (hi : x.origins[i]? = some (.save k message))
    (hleads : (save target message).Leads (x.steps i ++ Mark.stepsOf [m]) p) : Turn x i m := by
  refine .aside (fun hend => ?_) ?_ fun h => ?_
  · exact pollEnd_of_leads_save hleads (List.mem_append_right _ hend)
  · refine Option.eq_none_iff_forall_ne_some.2 fun j hj => ?_
    obtain ⟨s, he⟩ := Event.eq_of_poster? hj
    cases he
    have hmem : Message.pong s ∈ posts (x.steps i ++ Mark.stepsOf [.met (posting (.pong s))]) := by
      rw [posts_append]
      exact List.mem_append_right _ (.head _)
    obtain ⟨-, msg, hposts, hkind⟩ | ⟨-, hposts⟩ :=
      Origin.posts_of_leads (o := .save k message) hleads
    · rw [hposts] at hmem
      obtain rfl := List.mem_singleton.1 hmem
      cases hkind
    · rw [hposts] at hmem
      cases hmem
  · cases hi.symm.trans h

theorem Sound.turn (H : Sound target x) (hs : Crowd.Step i x.crowd c)
    (hm : c.log = x.crowd.log ++ [(i, m)]) : Turn x i m := by
  obtain ⟨o, ho⟩ := H.exists_origin hs
  obtain ⟨s, -, hleads⟩ := (H.note (m := m) hs).exists_leads ho
  rw [steps_note hm, if_pos rfl] at hleads
  cases o with
  | ping => exact turn_of_poll ho (pollPath_of_leads hleads)
  | save k message => exact turn_of_save ho hleads

theorem polling_note_iff (hm : c.log = x.crowd.log ++ [(i, m)]) : (x.note c m).Polling j ↔
    x.Polling j ∧ (j = i → pollEnd ∉ Mark.stepsOf [m]) := by
  rw [Polling, steps_note hm, Polling, and_assoc]
  by_cases hj : j = i
  · rw [if_pos hj, List.mem_append, not_or, imp_iff_right hj]
    rfl
  · simp [hj, note]

theorem Flagged.note (H : Flagged x) (h : Turn x i m) (hm : c.log = x.crowd.log ++ [(i, m)]) :
    Flagged (x.note c m) := by
  cases h with
  | clears hi =>
    -- The flag is cleared by the only job that had not let the next ping in.
    have hnone (j : Nat) : ¬ (x.note c (.met pollEnd)).Polling j := by
      intro hj
      obtain ⟨hj, hnot⟩ := (polling_note_iff hm).1 hj
      exact hnot ((H.single i hi).2 j hj) (.head _)
    exact ⟨nofun, fun j hj => absurd hj (hnone j)⟩
  | answers s hi hend hposts =>
    refine H.congr rfl fun j => (polling_note_iff hm).trans (and_iff_left_of_imp fun hj hji => ?_)
    subst hji
    exact absurd hend hj.2
  | aside hend _ _ =>
    refine H.congr ?_ fun j => (polling_note_iff hm).trans (and_iff_left fun _ => hend)
    obtain r | ⟨⟨_ | _ | _ | _ | _ | _, a⟩⟩ := m
    case met.endPoll => exact absurd (.head _) hend
    all_goals rfl

/-- A job that has posted its answer stays one that has. -/
theorem posts_note_ne_nil (hm : c.log = x.crowd.log ++ [(i, m)]) (h : posts (x.steps j) ≠ []) :
    posts ((x.note c m).steps j) ≠ [] := by
  rw [steps_note hm, posts_append]
  exact fun hnone => h (List.append_eq_nil_iff.1 hnone).1

theorem Counted.note (H : Counted l x) (h : Turn x i m) (hm : c.log = x.crowd.log ++ [(i, m)]) :
    Counted (l ++ [.noted i m]) (x.note c m) := by
  have hstarted : (x.note c m).origins.count .ping ≤ pings (l ++ [.noted i m]) := by
    rw [pings_append]
    exact Nat.le_add_right_of_le H.started
  cases h with
  | clears hi => exact H.snoc rfl hstarted fun j hj hposts => ⟨hj, posts_note_ne_nil hm hposts⟩
  | aside _ hposter _ =>
    exact H.snoc hposter hstarted fun j hj hposts => ⟨hj, posts_note_ne_nil hm hposts⟩
  | answers s hi hend hposts =>
    have hposters : posters (l ++ [.noted i (.met (posting (.pong s)))]) = posters l ++ [i] :=
      posters_append ..
    refine ⟨hstarted, ?_, fun j hj => ?_⟩
    · rw [hposters]
      refine List.nodup_append.2 ⟨H.nodup, List.nodup_singleton i, fun j hj k hk hjk => ?_⟩
      obtain rfl := List.mem_singleton.1 hk
      exact (H.posted j hj).2 (hjk ▸ hposts)
    · rw [hposters] at hj
      obtain hj | hj := List.mem_append.1 hj
      · obtain ⟨ho, hold⟩ := H.posted j hj
        exact ⟨ho, posts_note_ne_nil hm hold⟩
      · obtain rfl := List.mem_singleton.1 hj
        refine ⟨hi, ?_⟩
        rw [steps_note hm, if_pos rfl, posts_append]
        exact fun hnone => List.cons_ne_nil _ _ (List.append_eq_nil_iff.1 hnone).2

theorem Awaited.note (H : Awaited l x) (h : Turn x i m) (hm : c.log = x.crowd.log ++ [(i, m)]) :
    Awaited (l ++ [.noted i m]) (x.note c m) := by
  -- Whoever owes an answer owes it still, unless it posts the answer now.
  have howes (hnew : x.origins[i]? = some .ping → posts (Mark.stepsOf [m]) = []) (hx : x.Owes) :
      (x.note c m).Owes := by
    obtain ⟨j, hj, hposts⟩ := hx
    refine ⟨j, hj, ?_⟩
    rw [steps_note hm, posts_append, hposts]
    split
    · next hji => exact hnew (hji ▸ hj)
    · rfl
  cases h with
  | clears hi => exact H.snoc nofun fun hx => .inr (howes (fun _ => rfl) hx)
  | answers s hi hend hposts => exact H.snoc nofun fun _ => .inl nofun
  | aside _ _ hposts => exact H.snoc nofun fun hx => .inr (howes hposts hx)

theorem Polled.work (H : Polled target l x) (hs : Crowd.Step i x.crowd c)
    (hm : c.log = x.crowd.log ++ [(i, m)]) : Polled target (l ++ [.noted i m]) (x.note c m) := by
  have hturn := H.sound.turn hs hm
  exact ⟨H.sound.note hs, H.flagged.note hturn hm, H.counted.note hturn hm,
    H.awaited.note hturn hm⟩

theorem Run.polled (h : Run target l x) : Polled target l x := by
  induction h with
  | idle => exact polled_idle
  | take _ msg ih => exact ih.take msg
  | work _ hs hm ih => exact ih.work hs hm

/-! ## Whole runs -/

/-- What a host makes of the pings that it has taken. -/
structure Answering (target : String) (l : List Event) (x : HostCrowd) : Prop where
  /-- At most one job has set the flag and not cleared it. -/
  single : ∀ i j, x.Polling i → x.Polling j → i = j
  flag : x.polling ↔ ∃ i, x.Polling i
  counted : (posters l).length ≤ pings l
  /-- When no job is left, an answer has been posted after every ping. -/
  answered : x.Idle → ∀ before after, l = before ++ .taken .ping :: after → posters after ≠ []
  /-- The jobs that are left can end without another message. -/
  ends : ∃ (marks : List (Nat × Mark)) (y : HostCrowd),
    Run target (l ++ marks.map fun e => .noted e.1 e.2) y ∧ y.Idle

theorem Sound.not_owes (H : Sound target x) (hidle : x.Idle) : ¬ x.Owes := by
  rintro ⟨i, hi, hposts⟩
  exact (H.done_iff hi).1 (hidle i hi) hposts

theorem Run.exists_idle (h : Run target l x) : ∃ (marks : List (Nat × Mark)) (y : HostCrowd),
    Run target (l ++ marks.map fun e => .noted e.1 e.2) y ∧ y.Idle ∧ y.origins = x.origins := by
  obtain ⟨marks, y, hy, horigins, -, hdone⟩ := h.finish
  refine ⟨marks, y, hy, fun i hi => ?_, horigins⟩
  obtain ⟨s, hs, -⟩ := hy.sound.exists_leads hi
  rw [hs, hdone s (List.mem_of_getElem? hs)]

/-- However the pings, the saves and the steps of their jobs are mixed, one job at a time answers
pings, no ping has two answers, and none is lost. -/
theorem Run.polls (h : Run target l x) : Answering target l x := by
  obtain ⟨hsound, hflagged, hcounted, hawaited⟩ := h.polled
  constructor
  case single =>
    intro i j hi hj
    exact ((hflagged.single i hi).2 j hj).symm
  case flag =>
    refine ⟨hflagged.isSet, ?_⟩
    rintro ⟨i, hi⟩
    exact (hflagged.single i hi).1
  case counted =>
    have hsub : posters l ⊆ x.origins.idxsOf .ping := by
      intro i hi
      obtain ⟨hlt, hget⟩ := List.getElem?_eq_some_iff.1 (hcounted.posted i hi).1
      exact List.mem_idxsOf_iff_exists_getElem_pos.2 ⟨hlt, beq_iff_eq.2 hget⟩
    calc (posters l).length
        ≤ (x.origins.idxsOf .ping).length := (hcounted.nodup.subperm hsub).length_le
      _ = x.origins.count .ping := List.length_idxsOf
      _ ≤ pings l := hcounted.started
  case answered =>
    intro hidle before after hl
    exact (hawaited before after hl).resolve_right (hsound.not_owes hidle)
  case ends =>
    obtain ⟨marks, y, hy, hidle, -⟩ := h.exists_idle
    exact ⟨marks, y, hy, hidle⟩

/-- Two pings come before the job of the first one has made a step. The one job answers both. -/
theorem polls_coalesced : ∃ l x,
    Run "updates" ([.taken .ping, .taken .ping] ++ l) x ∧ x.Idle ∧ x.origins = [.ping] ∧
      posters l ≠ [] ∧ (posters ([.taken .ping, .taken .ping] ++ l)).length ≤ 2 + pings l := by
  have htwice : Run "updates" [.taken .ping, .taken .ping] _ := (Run.idle.take .ping).take .ping
  obtain ⟨marks, y, hy, hidle, horigins⟩ := htwice.exists_idle
  have hpolls := hy.polls
  refine ⟨_, y, hy, hidle, horigins, hpolls.answered hidle [.taken .ping] _ rfl, ?_⟩
  exact pings_append [.taken .ping, .taken .ping] _ ▸ hpolls.counted

end PublishDesk.HostCrowd
