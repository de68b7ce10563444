import Mathlib.Data.List.Basic
import PublishDesk.Proofs.Host.Crowd

/-!
# The order in which jobs hold the working tree

The jobs of a crowd hold the working tree one after the other, in the order in which they have asked
for it, and only the job that holds it makes calls to the repository. `Crowd.Orderly` is the
invariant; `Crowd.Orderly.start` and `Crowd.Orderly.step` say that it is kept. What the invariant
comes to is `Crowd.Orderly.blocks`: the calls noted in the log are those of the first job that
asked, then those of the second, and so on.
-/

namespace PublishDesk

variable {α : Type}

/-! ## Readings of the log -/

def Mark.isCall : Mark → Bool
  | .began _ | .met ⟨.tree (.repository _), _⟩ => true
  | _ => false

namespace Crowd

/-- The jobs that have asked for the working tree, the first one first. -/
def requestsOf (log : List (Nat × Mark)) : List Nat :=
  log.filterMap fun
    | (i, .met ⟨.tree .acquire, _⟩) => some i
    | _ => none

/-- What has been noted of calls to the repository. -/
def callLog (log : List (Nat × Mark)) : List (Nat × Mark) := log.filter (·.2.isCall)

/-- What has been noted of the calls of one job. -/
def blockOf (log : List (Nat × Mark)) (number : Nat) : List (Nat × Mark) :=
  (callLog log).filter (·.1 == number)

/-! ## Who has the tree -/

/-- The jobs that have let go of the working tree, the job that holds it, and those that wait for
it, each in the order of asking. -/
structure Ledger where
  gone : List Nat := []
  holder : Option Nat := none
  waiting : List Nat := []

/-- Where a job stands in the ledger. -/
inductive Place where
  | away
  | waiting
  | holding
  | gone

namespace Ledger

def all (l : Ledger) : List Nat := l.gone ++ l.holder.toList ++ l.waiting

def place (l : Ledger) (i : Nat) : Place :=
  if i ∈ l.gone then .gone
  else if l.holder = some i then .holding
  else if i ∈ l.waiting then .waiting
  else .away

end Ledger

end Crowd

/-- Whether a job may stand so at a given place in the ledger. -/
def Standing.Fits : Standing α → Crowd.Place → Prop
  | .ready p, .away => p.Keeps .before
  | .ready p, .holding | .waiting p, .waiting => p.Keeps .inside
  | .calling _ next, .holding => ∀ a, (next a).Keeps .inside
  | .ready p, .gone => p.Keeps .after
  | _, _ => False

namespace Crowd

/-- The ledger says who has the working tree, and all jobs keep to it. -/
structure Orderly (c : Crowd α) (l : Ledger) : Prop where
  requests : requestsOf c.log = l.all
  nodup : l.all.Nodup
  known : ∀ i ∈ l.all, i < c.jobs.length
  held : c.lock.held = l.holder.isSome
  waiting : c.lock.waiting = l.waiting
  /-- Nobody waits for a tree that is free. -/
  idle : l.holder = none → l.waiting = []
  fits : ∀ (i : Nat) s, c.jobs[i]? = some s → s.Fits (l.place i)
  /-- A job that waits has made no calls yet. -/
  called : ∀ e ∈ callLog c.log, e.1 ∈ l.gone ++ l.holder.toList
  blocks : callLog c.log = l.all.flatMap (blockOf c.log)

/-! ## Blocks -/

@[simp] theorem requestsOf_append (L L' : List (Nat × Mark)) :
    requestsOf (L ++ L') = requestsOf L ++ requestsOf L' := List.filterMap_append

@[simp] theorem callLog_append (L L' : List (Nat × Mark)) :
    callLog (L ++ L') = callLog L ++ callLog L' := List.filter_append ..

@[simp] theorem blockOf_append (L L' : List (Nat × Mark)) (i : Nat) :
    blockOf (L ++ L') i = blockOf L i ++ blockOf L' i := by
  simp [blockOf]

theorem nodup_requestsOf_singleton {e : Nat × Mark} : (requestsOf [e]).Nodup := by
  simp only [requestsOf, List.filterMap_cons, List.filterMap_nil]
  split
  · exact List.nodup_nil
  · exact List.pairwise_singleton _ _

theorem requestsOf_eq_nil_of_isCall {i : Nat} {m : Mark} (hm : m.isCall) :
    requestsOf [(i, m)] = [] := by
  cases m with
  | began _ => rfl
  | met e =>
    obtain ⟨⟨_ | _ | _ | _⟩ | _ | _ | _ | _ | _, _⟩ := e <;> first | rfl | cases hm

theorem blockOf_eq_nil {L : List (Nat × Mark)} {i : Nat} (h : ∀ e ∈ callLog L, e.1 ≠ i) :
    blockOf L i = [] := by
  simpa [blockOf] using h

theorem blockOf_snoc_of_not_isCall {L : List (Nat × Mark)} {i : Nat} {m : Mark}
    (hm : m.isCall = false) : blockOf (L ++ [(i, m)]) = blockOf L := by
  funext j
  simp [blockOf, callLog, hm]

theorem callLog_snoc_of_not_isCall {L : List (Nat × Mark)} {i : Nat} {m : Mark}
    (hm : m.isCall = false) : callLog (L ++ [(i, m)]) = callLog L := by
  simp [callLog, hm]

/-- A call by the last job with a block makes that block longer. -/
theorem callLog_snoc_eq_flatMap {L : List (Nat × Mark)} {i : Nat} {m : Mark} {gone rest : List Nat}
    (hL : callLog L = (gone ++ i :: rest).flatMap (blockOf L)) (hnodup : (gone ++ i :: rest).Nodup)
    (hrest : ∀ e ∈ callLog L, e.1 ∉ rest) (hm : m.isCall) :
    callLog (L ++ [(i, m)]) = (gone ++ i :: rest).flatMap (blockOf (L ++ [(i, m)])) := by
  have hnew : callLog [(i, m)] = [(i, m)] := by simp [callLog, hm]
  have hself : blockOf [(i, m)] i = [(i, m)] := by simp [blockOf, hnew]
  have hother (j : Nat) (hj : j ≠ i) : blockOf (L ++ [(i, m)]) j = blockOf L j := by
    simp [blockOf, hnew, Ne.symm hj]
  have hgone : gone.flatMap (blockOf (L ++ [(i, m)])) = gone.flatMap (blockOf L) :=
    List.flatMap_congr fun j hj => hother j fun h => by
      subst h
      exact (List.nodup_append.1 hnodup).2.2 j hj j List.mem_cons_self rfl
  have hempty : rest.flatMap (blockOf L) = [] :=
    List.flatMap_eq_nil_iff.2 fun j hj => blockOf_eq_nil fun e he h => hrest e he (h ▸ hj)
  have hempty' : rest.flatMap (blockOf (L ++ [(i, m)])) = [] := by
    refine (List.flatMap_congr fun j hj => hother j fun h => ?_).trans hempty
    subst h
    exact (List.nodup_cons.1 (List.nodup_append.1 hnodup).2.1).1 hj
  rw [callLog_append, hL, hnew]
  simp only [List.flatMap_append, List.flatMap_cons, hgone, hempty, hempty', List.append_nil,
    blockOf_append L, hself, List.append_assoc]

/-! ## Entries of the ledger -/

namespace Ledger

variable {l : Ledger} {i j : Nat}

theorem place_eq_away_iff : l.place i = .away ↔ i ∉ l.all := by
  simp only [all, List.mem_append, Option.mem_toList]
  grind [place]

theorem holder_of_place (h : l.place i = .holding) : l.holder = some i := by
  grind [place]

theorem mem_waiting_of_place (h : l.place i = .waiting) : i ∈ l.waiting := by
  grind [place]

theorem place_of_holder (hnodup : l.all.Nodup) (h : l.holder = some i) : l.place i = .holding := by
  obtain ⟨⟨-, -, hdisjoint⟩, -, -⟩ :=
    (List.nodup_append.1 hnodup).imp_left List.nodup_append.1
  have hnot : i ∉ l.gone := fun hi => hdisjoint i hi i (by simp [h]) rfl
  rw [place, if_neg hnot, if_pos h]

theorem place_of_mem_waiting (hnodup : l.all.Nodup) (hi : i ∈ l.waiting) :
    l.place i = .waiting := by
  obtain ⟨-, -, hdisjoint⟩ := List.nodup_append.1 hnodup
  have hnot : i ∉ l.gone ++ l.holder.toList := fun h => hdisjoint i h i hi rfl
  rw [List.mem_append, Option.mem_toList, not_or] at hnot
  rw [place, if_neg hnot.1, if_neg hnot.2, if_pos hi]

def take (i : Nat) (l : Ledger) : Ledger := { l with holder := some i }

def wait (i : Nat) (l : Ledger) : Ledger := { l with waiting := l.waiting ++ [i] }

/-- The job that holds the tree lets go of it. -/
def release (i : Nat) (l : Ledger) : Ledger := ⟨l.gone ++ [i], l.waiting.head?, l.waiting.tail⟩

theorem all_take (h : l.holder = none) (h' : l.waiting = []) : (l.take i).all = l.all ++ [i] := by
  simp [all, take, h, h']

theorem all_wait : (l.wait i).all = l.all ++ [i] := by
  simp [all, wait]

theorem all_release (h : l.holder = some i) : (l.release i).all = l.all := by
  obtain ⟨gone, holder, waiting⟩ := l
  cases waiting <;> simp_all [all, release]

theorem place_take (h : l.holder = none) (hi : i ∉ l.all) :
    (l.take i).place j = if j = i then .holding else l.place j := by
  simp only [all, List.mem_append, not_or] at hi
  grind [place, take]

theorem place_wait (hi : i ∉ l.all) :
    (l.wait i).place j = if j = i then .waiting else l.place j := by
  simp only [all, List.mem_append, Option.mem_toList, not_or] at hi
  grind [place, wait]

theorem place_release (h : l.holder = some i) (hnodup : l.all.Nodup) :
    (l.release i).place j =
      if j = i then .gone else if l.waiting.head? = some j then .holding else l.place j := by
  obtain ⟨gone, holder, waiting⟩ := l
  cases waiting <;> simp_all [all, release] <;> grind [place]

end Ledger

end Crowd

/-! ## The lock -/

namespace TreeLock

variable {l l' : TreeLock} {i j : Nat}

theorem of_acquire_true (h : l.acquire i = (true, l')) :
    l.held = false ∧ l' = { l with held := true } := by
  unfold acquire at h
  split at h
  · cases h
  · next hheld => exact ⟨by simpa using hheld, (Prod.mk.inj h).2.symm⟩

theorem of_acquire_false (h : l.acquire i = (false, l')) :
    l.held = true ∧ l' = { l with waiting := l.waiting ++ [i] } := by
  unfold acquire at h
  split at h
  · next hheld => exact ⟨hheld, (Prod.mk.inj h).2.symm⟩
  · cases h

theorem of_release_none (h : l.release = (none, l')) :
    l.waiting = [] ∧ l' = { l with held := false } := by
  unfold release at h
  split at h
  · next hw => exact ⟨hw, (Prod.mk.inj h).2.symm⟩
  · cases h

theorem of_release_some (h : l.release = (some j, l')) :
    ∃ rest, l.waiting = j :: rest ∧ l' = { l with waiting := rest } := by
  unfold release at h
  split at h
  · cases h
  · next rest hw =>
    cases h
    exact ⟨rest, hw, rfl⟩

end TreeLock

/-! ## Steps keep to the order -/

def Hold.place : Hold → Crowd.Place
  | .before => .away
  | .inside => .holding
  | .after => .gone

theorem Standing.fits_ready_iff {p : Job α} {x : Crowd.Place} :
    (Standing.ready p).Fits x ↔ ∃ h : Hold, x = h.place ∧ p.Keeps h := by
  constructor
  · intro H
    cases x with
    | away => exact ⟨.before, rfl, H⟩
    | holding => exact ⟨.inside, rfl, H⟩
    | gone => exact ⟨.after, rfl, H⟩
    | waiting => exact H.elim
  · rintro ⟨_ | _ | _, rfl, H⟩ <;> exact H

theorem Standing.fits_calling_iff {r : RepositoryCall} {next : r.Answer → Job α}
    {x : Crowd.Place} :
    (Standing.calling r next).Fits x ↔ x = .holding ∧ ∀ a, (next a).Keeps .inside := by
  cases x <;> simp [Standing.Fits]

theorem Standing.place_of_waiting {p : Job α} {x : Crowd.Place} (h : (Standing.waiting p).Fits x) :
    x = .waiting := by
  cases x with
  | waiting => rfl
  | away | holding | gone => exact h.elim

theorem Standing.fits_wake {s : Standing α} (h : s.Fits .waiting) : s.wake.Fits .holding := by
  cases s with
  | waiting p => exact h
  | ready p => exact h.elim
  | calling r next => exact h.elim

/-- A step that has nothing to do with the tree is neither a call nor a request. -/
theorem Mark.of_isAside {s : HostStep} (hs : s.isAside) (i : Nat) (a : s.Answer) :
    (Mark.met ⟨s, a⟩).isCall = false ∧ Crowd.requestsOf [(i, .met ⟨s, a⟩)] = [] := by
  obtain ⟨_ | _ | _ | _⟩ | _ | _ | _ | _ | _ := s <;> first | exact ⟨rfl, rfl⟩ | cases hs

namespace Crowd

variable {c c' : Crowd α} {l l' : Ledger} {i : Nat} {m : Mark} {s' : Standing α}

theorem Orderly.fits_put (H : Orderly c l) (hplace : ∀ j, j ≠ i → l'.place j = l.place j)
    (hs' : s'.Fits (l'.place i)) :
    ∀ (j : Nat) s, (c.jobs.set i s')[j]? = some s → s.Fits (l'.place j) := by
  intro j s hj
  rw [List.getElem?_set] at hj
  split at hj
  · next hij =>
    subst hij
    split at hj <;> cases hj
    exact hs'
  · next hij =>
    rw [hplace j fun h => hij h.symm]
    exact H.fits j s hj

/-- A mark that belongs to no call keeps the blocks, if at most the ledger gets a new job. -/
theorem Orderly.note (H : Orderly c l) (hm : m.isCall = false) (hlog : c'.log = c.log ++ [(i, m)])
    (hlen : c'.jobs.length = c.jobs.length) (hall : l'.all = l.all ++ requestsOf [(i, m)])
    (hnew : ∀ j ∈ requestsOf [(i, m)], j ∉ l.all ∧ j < c.jobs.length)
    (hheld : c'.lock.held = l'.holder.isSome) (hwaiting : c'.lock.waiting = l'.waiting)
    (hidle : l'.holder = none → l'.waiting = [])
    (hfits : ∀ (j : Nat) s, c'.jobs[j]? = some s → s.Fits (l'.place j))
    (hcalled : ∀ j ∈ l.gone ++ l.holder.toList, j ∈ l'.gone ++ l'.holder.toList) :
    Orderly c' l' where
  requests := by rw [hlog, hall, requestsOf_append, H.requests]
  nodup := by
    rw [hall]
    refine List.nodup_append.2 ⟨H.nodup, nodup_requestsOf_singleton, fun j hj k hk h => ?_⟩
    exact (hnew k hk).1 (h ▸ hj)
  known j hj := by
    rw [hall, List.mem_append] at hj
    rw [hlen]
    exact hj.elim (H.known j) fun hj => (hnew j hj).2
  held := hheld
  waiting := hwaiting
  idle := hidle
  fits := hfits
  called e he := by
    rw [hlog, callLog_snoc_of_not_isCall hm] at he
    exact hcalled _ (H.called e he)
  blocks := by
    have hempty : (requestsOf [(i, m)]).flatMap (blockOf c.log) = [] :=
      List.flatMap_eq_nil_iff.2 fun j hj => blockOf_eq_nil fun e he h =>
        (hnew j hj).1 (h ▸ List.mem_append_left _ (H.called e he))
    rw [hlog, callLog_snoc_of_not_isCall hm, blockOf_snoc_of_not_isCall hm, hall,
      List.flatMap_append, hempty, List.append_nil]
    exact H.blocks

/-- A mark that belongs to a call of the job that holds the tree makes its block longer. -/
theorem Orderly.noteCall (H : Orderly c l) (hm : m.isCall) (hi : l.holder = some i)
    (hs' : s'.Fits (l.place i)) : Orderly (c.put i s' m) l where
  requests := by
    rw [show (c.put i s' m).log = c.log ++ [(i, m)] from rfl, requestsOf_append,
      requestsOf_eq_nil_of_isCall hm, List.append_nil, H.requests]
  nodup := H.nodup
  known j hj := by simpa [put] using H.known j hj
  held := H.held
  waiting := H.waiting
  idle := H.idle
  fits := H.fits_put (fun _ _ => rfl) hs'
  called e he := by
    rw [show (c.put i s' m).log = c.log ++ [(i, m)] from rfl, callLog_append, List.mem_append] at he
    obtain he | he := he
    · exact H.called e he
    · obtain rfl : e = (i, m) := by simpa using (List.mem_filter.1 he).1
      simp [hi]
  blocks := by
    have hall : l.all = l.gone ++ i :: l.waiting := by simp [Ledger.all, hi]
    have hnodup := H.nodup
    have hblocks := H.blocks
    rw [hall] at hnodup hblocks
    have hwaiting : ∀ e ∈ callLog c.log, e.1 ∉ l.waiting := fun e he hw => by
      have hcalled := H.called e he
      rw [List.append_cons] at hnodup
      rw [hi, Option.toList_some] at hcalled
      exact (List.nodup_append.1 hnodup).2.2 e.1 hcalled e.1 hw rfl
    rw [hall]
    exact callLog_snoc_eq_flatMap hblocks hnodup hwaiting hm

theorem Orderly.nil : Orderly ({} : Crowd α) {} where
  requests := rfl
  nodup := List.nodup_nil
  known := nofun
  held := rfl
  waiting := rfl
  idle _ := rfl
  fits _ _ h := nomatch h
  called := nofun
  blocks := rfl

theorem Orderly.start (H : Orderly c l) {job : Job α} (hjob : job.Keeps .before) :
    Orderly (c.start job) l where
  requests := H.requests
  nodup := H.nodup
  known j hj := by
    rw [Crowd.start, List.length_append]
    exact Nat.lt_add_right _ (H.known j hj)
  held := H.held
  waiting := H.waiting
  idle := H.idle
  fits j s hj := by
    rw [Crowd.start] at hj
    by_cases hlt : j < c.jobs.length
    · exact H.fits j s (by rwa [List.getElem?_append_left hlt] at hj)
    · rw [List.getElem?_append_right (Nat.le_of_not_lt hlt), List.getElem?_singleton] at hj
      split at hj <;> cases hj
      have haway : l.place j = .away :=
        Ledger.place_eq_away_iff.2 fun h => hlt (H.known j h)
      rw [haway]
      exact hjob
  called := H.called
  blocks := H.blocks

/-- The job that makes a step with these questions ahead stands at the place that it keeps to. -/
theorem Orderly.keeps (H : Orderly c l) {p : Job α} (hi : c.jobs[i]? = some (.ready p)) :
    ∃ h : Hold, l.place i = h.place ∧ p.Keeps h := Standing.fits_ready_iff.1 (H.fits i _ hi)

theorem Orderly.take (H : Orderly c l) {next : Unit → Job α} {lock : TreeLock}
    (hi : c.jobs[i]? = some (.ready (.ask (.tree .acquire) next)))
    (hl : c.lock.acquire i = (true, lock)) :
    Orderly ((c.put i (.ready (next ())) (.met ⟨.tree .acquire, ()⟩)).setLock lock) (l.take i) := by
  obtain ⟨hold, hplace, hkeeps⟩ := H.keeps hi
  obtain ⟨rfl, hnext⟩ := hkeeps.of_acquire
  have haway : i ∉ l.all := Ledger.place_eq_away_iff.1 hplace
  obtain ⟨hfree, rfl⟩ := TreeLock.of_acquire_true hl
  have hholder : l.holder = none := by simpa [H.held] using hfree
  have hwaiting : l.waiting = [] := H.idle hholder
  refine H.note rfl rfl (by simp [put, setLock]) (Ledger.all_take hholder hwaiting) ?_ rfl H.waiting
    nofun (H.fits_put (fun j hj => ?_) ?_) ?_
  · intro j hj
    obtain rfl : j = i := by simpa [requestsOf] using hj
    exact ⟨haway, (List.getElem?_eq_some_iff.1 hi).1⟩
  · rw [Ledger.place_take hholder haway, if_neg hj]
  · rw [Ledger.place_take hholder haway, if_pos rfl]
    exact hnext
  · intro j hj
    rw [hholder, Option.toList_none, List.append_nil] at hj
    exact List.mem_append_left _ hj

theorem Orderly.wait (H : Orderly c l) {next : Unit → Job α} {lock : TreeLock}
    (hi : c.jobs[i]? = some (.ready (.ask (.tree .acquire) next)))
    (hl : c.lock.acquire i = (false, lock)) :
    Orderly ((c.put i (.waiting (next ())) (.met ⟨.tree .acquire, ()⟩)).setLock lock)
      (l.wait i) := by
  obtain ⟨hold, hplace, hkeeps⟩ := H.keeps hi
  obtain ⟨rfl, hnext⟩ := hkeeps.of_acquire
  have haway : i ∉ l.all := Ledger.place_eq_away_iff.1 hplace
  obtain ⟨hheld, rfl⟩ := TreeLock.of_acquire_false hl
  refine H.note rfl rfl (by simp [put, setLock]) Ledger.all_wait ?_ H.held
    (congrArg (· ++ [i]) H.waiting) (fun hnone => ?_) (H.fits_put (fun j hj => ?_) ?_)
    fun _ hj => hj
  · intro j hj
    obtain rfl : j = i := by simpa [requestsOf] using hj
    exact ⟨haway, (List.getElem?_eq_some_iff.1 hi).1⟩
  · rw [H.held, show l.holder = none from hnone] at hheld
    cases hheld
  · rw [Ledger.place_wait haway, if_neg hj]
  · rw [Ledger.place_wait haway, if_pos rfl]
    exact hnext

/-- A job that lets go of the tree holds it, and keeps away from it then. -/
theorem Orderly.of_release (H : Orderly c l) {next : Unit → Job α}
    (hi : c.jobs[i]? = some (.ready (.ask (.tree .release) next))) :
    l.place i = .holding ∧ (next ()).Keeps .after := by
  obtain ⟨hold, hplace, hkeeps⟩ := H.keeps hi
  obtain ⟨rfl, hnext⟩ := hkeeps.of_release
  exact ⟨hplace, hnext⟩

theorem Orderly.called_release (hholder : l.holder = some i) :
    ∀ j ∈ l.gone ++ l.holder.toList, j ∈ (l.release i).gone ++ (l.release i).holder.toList := by
  intro j hj
  rw [hholder, Option.toList_some] at hj
  exact List.mem_append_left _ hj

theorem Orderly.free (H : Orderly c l) {next : Unit → Job α} {lock : TreeLock}
    (hi : c.jobs[i]? = some (.ready (.ask (.tree .release) next)))
    (hl : c.lock.release = (none, lock)) :
    Orderly ((c.put i (.ready (next ())) (.met ⟨.tree .release, ()⟩)).setLock lock)
      (l.release i) := by
  obtain ⟨hplace, hnext⟩ := H.of_release hi
  have hholder : l.holder = some i := Ledger.holder_of_place hplace
  obtain ⟨hfree, rfl⟩ := TreeLock.of_release_none hl
  have hwaiting : l.waiting = [] := H.waiting ▸ hfree
  have hall : (l.release i).all = l.all ++ [] := by
    rw [Ledger.all_release hholder, List.append_nil]
  have hheld : false = (l.release i).holder.isSome := by simp [Ledger.release, hwaiting]
  have hrest : c.lock.waiting = (l.release i).waiting := by
    simp [Ledger.release, hwaiting, hfree]
  refine H.note rfl rfl (by simp [put, setLock]) hall nofun hheld hrest
    (fun _ => hrest ▸ hfree) (H.fits_put (fun j hj => ?_) ?_) (called_release hholder)
  · simp [Ledger.place_release hholder H.nodup, hj, hwaiting]
  · rw [Ledger.place_release hholder H.nodup, if_pos rfl]
    exact hnext

theorem Orderly.pass (H : Orderly c l) {next : Unit → Job α} {lock : TreeLock} {j : Nat}
    (hi : c.jobs[i]? = some (.ready (.ask (.tree .release) next)))
    (hl : c.lock.release = (some j, lock)) :
    Orderly (((c.put i (.ready (next ())) (.met ⟨.tree .release, ()⟩)).setLock lock).wake j)
      (l.release i) := by
  obtain ⟨hplace, hnext⟩ := H.of_release hi
  have hholder : l.holder = some i := Ledger.holder_of_place hplace
  obtain ⟨rest, hlock, rfl⟩ := TreeLock.of_release_some hl
  have hwaiting : l.waiting = j :: rest := H.waiting ▸ hlock
  have hall : (l.release i).all = l.all ++ [] := by
    rw [Ledger.all_release hholder, List.append_nil]
  have hheld : c.lock.held = (l.release i).holder.isSome := by
    simp [Ledger.release, hwaiting, H.held, hholder]
  have hrest : rest = (l.release i).waiting := by simp [Ledger.release, hwaiting]
  have hnone : (l.release i).holder = none → (l.release i).waiting = [] := by
    simp [Ledger.release, hwaiting]
  refine H.note rfl rfl (by simp [put, setLock, Crowd.wake]) hall nofun hheld hrest hnone ?_
    (called_release hholder)
  have hjplace : l.place j = .waiting :=
    Ledger.place_of_mem_waiting H.nodup (hwaiting ▸ List.mem_cons_self)
  have hij : i ≠ j := by
    rintro rfl
    rw [hplace] at hjplace
    cases hjplace
  -- The job that is woken goes from its place among those that wait to that of the holder.
  have hnew (k : Nat) : (l.release i).place k =
      if k = i then .gone else if j = k then .holding else l.place k := by
    simp [Ledger.place_release hholder H.nodup, hwaiting]
  intro k s hk
  change ((c.jobs.set i (.ready (next ()))).modify j Standing.wake)[k]? = some s at hk
  rw [List.getElem?_modify, List.getElem?_set] at hk
  rw [hnew]
  obtain rfl | hki := eq_or_ne k i
  · obtain rfl : Standing.ready (next ()) = s := by
      simpa [hij.symm, (List.getElem?_eq_some_iff.1 hi).1] using hk
    rw [if_pos rfl]
    exact hnext
  rw [if_neg hki]
  rw [if_neg hki.symm] at hk
  obtain rfl | hkj := eq_or_ne j k
  · rw [if_pos rfl]
    obtain ⟨s, hs, rfl⟩ : ∃ s₀, c.jobs[j]? = some s₀ ∧ s₀.wake = s := by simpa using hk
    exact Standing.fits_wake (hjplace ▸ H.fits j s hs)
  · rw [if_neg hkj]
    exact H.fits k s (by simpa [hkj] using hk)

/-- A step that neither takes nor lets go of the tree, and is no call, leaves the ledger alone. -/
theorem Orderly.stay (H : Orderly c l)
    (hm : m.isCall = false ∧ requestsOf [(i, m)] = []) (hs' : s'.Fits (l.place i))
    (hlog : c'.log = c.log ++ [(i, m)]) (hjobs : c'.jobs = c.jobs.set i s')
    (hlock : c'.lock = c.lock) : Orderly c' l := by
  refine H.note hm.1 hlog ?_ ?_ ?_ (hlock ▸ H.held) (hlock ▸ H.waiting) H.idle ?_ fun _ hj => hj
  · rw [hjobs, List.length_set]
  · rw [hm.2, List.append_nil]
  · simp [hm.2]
  · rw [hjobs]
    exact H.fits_put (fun _ _ => rfl) hs'

theorem Orderly.step (H : Orderly c l) (h : Step i c c') : ∃ l', Orderly c' l' := by
  cases h with
  | take hi hl => exact ⟨_, H.take hi hl⟩
  | wait hi hl => exact ⟨_, H.wait hi hl⟩
  | free hi hl => exact ⟨_, H.free hi hl⟩
  | pass hi hl => exact ⟨_, H.pass hi hl⟩
  | begin hi =>
    obtain ⟨hold, hplace, hkeeps⟩ := H.keeps hi
    obtain ⟨rfl, hnext⟩ := hkeeps.of_call
    refine ⟨l, H.noteCall rfl (Ledger.holder_of_place hplace) ?_⟩
    rw [hplace]
    exact hnext
  | answered hi a =>
    obtain ⟨hplace, hnext⟩ := Standing.fits_calling_iff.1 (H.fits i _ hi)
    refine ⟨l, H.noteCall rfl (Ledger.holder_of_place hplace) ?_⟩
    rw [hplace]
    exact hnext a
  | aside hi hs a =>
    obtain ⟨hold, hplace, hkeeps⟩ := H.keeps hi
    obtain ⟨-, hnext⟩ := hkeeps.of_aside hs
    exact ⟨l, H.stay (Mark.of_isAside hs i a)
      (Standing.fits_ready_iff.2 ⟨hold, hplace, hnext a⟩) rfl rfl rfl⟩

end Crowd
end PublishDesk
