import PublishDesk.Proofs.Cancellation.Ledger

/-!
# What an entry keeps

How far a family is (`Standing`), that each act has had its cause (`Grounded`, `Act.Owed`), what is
in the ledger of every call (`Dues`), and in which order a call to cancel runs the observers that
wait (`Fires`): all of this stays so when a call is entered into the ledger.
-/

namespace PublishDesk.Cancellation

/-! ## Places -/

/-- The places of an act. -/
def places (a : Act) (h : List Act) : List Nat :=
  (List.range h.length).filter fun k => h[k]? = some a

section Places

variable {a : Act} {h l : List Act} {k : Nat}

theorem mem_places : k ∈ places a h ↔ h[k]? = some a := by
  rw [places, List.mem_filter, List.mem_range, decide_eq_true_iff]
  refine ⟨And.right, fun hk => ⟨?_, hk⟩⟩
  exact (List.getElem?_eq_some_iff.1 hk).1

theorem nodup_places : (places a h).Nodup := List.nodup_range.filter _

theorem places_append : places a (h ++ l) = places a h ++ (places a l).map (h.length + ·) := by
  have hleft : ∀ k ∈ List.range h.length,
      decide ((h ++ l)[k]? = some a) = decide (h[k]? = some a) := by
    intro k hk
    rw [List.getElem?_append_left (List.mem_range.1 hk)]
  have hright (k : Nat) : (h ++ l)[h.length + k]? = l[k]? := by
    rw [List.getElem?_append_right (Nat.le_add_right _ _), Nat.add_sub_cancel_left]
  rw [places, List.length_append, List.range_add, List.filter_append, List.filter_congr hleft,
    List.filter_map, places, places]
  simp only [Function.comp_def, hright]

theorem places_eq_nil (ha : a ∉ h) : places a h = [] := by
  rw [List.eq_nil_iff_forall_not_mem]
  exact fun k hk => ha (List.mem_of_getElem? (mem_places.1 hk))

theorem places_append_of_not_mem (ha : a ∉ l) : places a (h ++ l) = places a h := by
  rw [places_append, places_eq_nil ha, List.map_nil, List.append_nil]

theorem getElem?_length_append (h : List Act) (a : Act) (l : List Act) :
    (h ++ a :: l)[h.length]? = some a := by
  rw [List.getElem?_append_right (Nat.le_refl _), Nat.sub_self]
  rfl

theorem take_length_append (h l : List Act) : (h ++ l).take h.length = h := List.take_left

end Places

/-! ## How far a family is -/

/-- What a family of the machine says about the past: there is none, it has been cancelled, or the
observers that have been registered wait. -/
def Standing (past : List Act) (f : Nat) : Option Waiting → Prop
  | none => .cancels f ∉ past ∧ .observes f ∉ past
  | some none => .cancels f ∈ past
  | some (some obs) => .cancels f ∉ past ∧ obs.map Prod.fst = places (.observes f) past

section Standing

variable {past new : List Act} {f : Nat} {w : Option Waiting}

theorem Standing.append (h : Standing past f w) (hcancels : .cancels f ∉ new)
    (hobserves : .observes f ∉ new) : Standing (past ++ new) f w := by
  have hnot {a : Act} (ha : a ∉ past) (ha' : a ∉ new) : a ∉ past ++ new :=
    fun hmem => (List.mem_append.1 hmem).elim ha ha'
  match w with
  | none => exact ⟨hnot h.1 hcancels, hnot h.2 hobserves⟩
  | some none => exact List.mem_append_left _ h
  | some (some obs) =>
    exact ⟨hnot h.1 hcancels, h.2.trans (places_append_of_not_mem hobserves).symm⟩

theorem Standing.isNone_iff {w : Waiting} (h : Standing past f (some w)) :
    w.isNone = true ↔ .cancels f ∈ past := by
  match w with
  | none => exact ⟨fun _ => h, fun _ => rfl⟩
  | some obs => exact ⟨fun hw => (Bool.false_ne_true hw).elim, fun hf => absurd hf h.1⟩

end Standing

/-! ## Causes -/

/-- What has to have happened before an act. -/
def Act.Grounded (past : List Act) : Act → Prop
  | .looks f b => b = true ↔ .cancels f ∈ past
  | .answers k f _ => past[k]? = some (.cancels f)
  | .leaves k f => past[k]? = some (.observes f)
  | .starts k f | .ends k f => past[k]? = some (.observes f) ∧ .cancels f ∈ past
  | _ => True

/-- What has to have happened for an act to be owed. -/
def Act.Owed (past : List Act) : Act → Prop
  | .answers k f _ => past[k]? = some (.cancels f)
  | .leaves k f | .starts k f | .ends k f => past[k]? = some (.observes f) ∧ .cancels f ∈ past
  | .shows _ => True
  | _ => False

/-- Every act has had its cause. -/
def Grounded (h : List Act) : Prop := ∀ (i : Nat) (a : Act), h[i]? = some a → a.Grounded (h.take i)

section Causes

variable {past new : List Act} {a : Act}

theorem getElem?_append_of_some {l : List Act} {i : Nat} (h : l[i]? = some a) (l' : List Act) :
    (l ++ l')[i]? = some a :=
  (List.getElem?_append_left (List.getElem?_eq_some_iff.1 h).1).trans h

theorem Act.Owed.append (h : a.Owed past) : a.Owed (past ++ new) := by
  cases a with
  | looks | cancels | observes => exact h
  | shows e => trivial
  | answers k f b => exact getElem?_append_of_some h new
  | leaves k f | starts k f | ends k f =>
    exact ⟨getElem?_append_of_some h.1 new, List.mem_append_left _ h.2⟩

theorem Act.Owed.grounded (h : a.Owed past) : a.Grounded past := by
  cases a with
  | looks => exact h.elim
  | cancels | observes | shows => trivial
  | answers | starts | ends => exact h
  | leaves k f => exact h.1

theorem Act.Owed.not_isCall (h : a.Owed past) : a.isCall = false := by
  cases a with
  | cancels | observes => exact h.elim
  | _ => rfl

theorem Grounded.append (h : Grounded past)
    (hnew : ∀ (j : Nat) (a : Act), new[j]? = some a → a.Grounded (past ++ new.take j)) :
    Grounded (past ++ new) := by
  intro i a ha
  rcases Nat.lt_or_ge i past.length with hi | hi
  · rw [List.getElem?_append_left hi] at ha
    rw [List.take_append_of_le_length (Nat.le_of_lt hi)]
    exact h i a ha
  · rw [List.getElem?_append_right hi] at ha
    rw [List.take_append, List.take_of_length_le hi]
    exact hnew _ a ha

end Causes

/-! ## What a call brings -/

/-- The call that an act belongs to. -/
def Act.call : Act → Option Nat
  | .answers k _ _ | .leaves k _ | .starts k _ | .ends k _ => some k
  | _ => none

def Act.isOf (k : Nat) (a : Act) : Bool := a.call == some k

/-- What a call brings, in order. -/
def due (h : List Act) (k : Nat) : List Act :=
  match h[k]? with
  | some (.cancels f) => [.answers k f (decide (.cancels f ∉ h.take k))]
  | some (.observes f) =>
    if .cancels f ∈ h.take k then life f k ++ [.leaves k f]
    else .leaves k f :: if .cancels f ∈ h then life f k else []
  | _ => []

section Due

variable {past new : List Act} {f k : Nat}

theorem due_of_cancels (h : past[k]? = some (.cancels f)) :
    due past k = [.answers k f (decide (.cancels f ∉ past.take k))] := by
  rw [due, h]

theorem due_of_late (h : past[k]? = some (.observes f)) (hf : .cancels f ∈ past.take k) :
    due past k = life f k ++ [.leaves k f] := by
  rw [due, h]
  exact if_pos hf

theorem due_of_early (h : past[k]? = some (.observes f)) (hf : .cancels f ∉ past.take k) :
    due past k = .leaves k f :: if .cancels f ∈ past then life f k else [] := by
  rw [due, h]
  exact if_neg hf

theorem due_of_not_isCall (h : ∀ a, past[k]? = some a → a.isCall = false) : due past k = [] := by
  rw [due]
  split
  · next hk => cases h _ hk
  · next hk => cases h _ hk
  · rfl

theorem due_of_length_le (h : past.length ≤ k) : due past k = [] := by
  refine due_of_not_isCall fun a ha => ?_
  rw [List.getElem?_eq_none h] at ha
  cases ha

/-- A call brings nothing else when no other call begins in its place and its family is not
cancelled. -/
theorem due_append (hnew : ∀ j a, new[j]? = some a → k = past.length + j → a.isCall = false)
    (hsame : ∀ f, past[k]? = some (.observes f) → .cancels f ∈ new → .cancels f ∈ past) :
    due (past ++ new) k = due past k := by
  rcases Nat.lt_or_ge k past.length with hk | hk
  · rw [due, due, List.getElem?_append_left hk, List.take_append_of_le_length (Nat.le_of_lt hk)]
    split
    · rfl
    · next f hf =>
      have hiff : .cancels f ∈ past ++ new ↔ .cancels f ∈ past := by
        rw [List.mem_append]
        exact ⟨fun h => h.elim id (hsame f hf), Or.inl⟩
      simp only [hiff]
    · rfl
  · rw [due_of_length_le hk]
    refine due_of_not_isCall fun a ha => ?_
    rw [List.getElem?_append_right hk] at ha
    exact hnew _ a ha (Nat.add_sub_cancel' hk).symm

theorem due_append_cons {a : Act} (hk : k ≠ past.length) (hnew : ∀ a ∈ new, a.isCall = false)
    (hsame : ∀ f, past[k]? = some (.observes f) → .cancels f ∈ a :: new → .cancels f ∈ past) :
    due (past ++ a :: new) k = due past k := by
  refine due_append (fun j b hb hj => ?_) hsame
  cases j with
  | zero => exact absurd hj hk
  | succ j => exact hnew b (List.mem_of_getElem? hb)

theorem due_append_of_not_isCall (hnew : ∀ a ∈ new, a.isCall = false) :
    due (past ++ new) k = due past k := by
  refine due_append (fun j a ha _ => hnew a (List.mem_of_getElem? ha)) fun f _ hf => ?_
  cases hnew _ hf

theorem filter_life (f k k' : Nat) :
    (life f k').filter (Act.isOf k) = if k = k' then life f k else [] := by
  by_cases hk : k = k'
  · subst hk
    simp [life, Act.isOf, Act.call]
  · simp [life, Act.isOf, Act.call, hk, Ne.symm hk]

theorem filter_flatMap_life {ks : List Nat} (hks : ks.Nodup) :
    (ks.flatMap (life f)).filter (Act.isOf k) = if k ∈ ks then life f k else [] := by
  induction ks with
  | nil => rfl
  | cons k' ks ih =>
    obtain ⟨hk', hks⟩ := List.nodup_cons.1 hks
    rw [List.flatMap_cons, List.filter_append, filter_life, ih hks]
    by_cases hk : k = k'
    · subst hk
      rw [if_pos rfl, if_neg hk', if_pos (List.mem_cons_self ..), List.append_nil]
    · simp only [List.mem_cons, hk, false_or, if_false, List.nil_append]

end Due

/-- The acts of observers that a call to cancel runs, and its return. -/
def Act.isFiredBy (f c : Nat) : Act → Bool
  | .starts k g | .ends k g => decide (g = f ∧ k < c)
  | .answers k _ _ => k == c
  | _ => false

/-- The list has what the calls of a history bring. -/
def Dues (h l : List Act) : Prop := ∀ k, l.filter (Act.isOf k) = due h k

/-- The list has the observers of the first calls to cancel of a history, in order. -/
def Fires (h l : List Act) : Prop :=
  ∀ c f, h[c]? = some (.cancels f) → .cancels f ∉ h.take c →
    l.filter (Act.isFiredBy f c) =
      (places (.observes f) (h.take c)).flatMap (life f) ++ [.answers c f true]

/-! ## Entries -/

section Entries

open Moment (Entry)

variable {past new owed rest : List Act} {families families' : List Waiting} {f : Nat}

theorem cancelled_of_standing (hs : ∀ f, Standing past f families[f]?)
    (hf : families[f]? = some none) : .cancels f ∈ past := by
  have hstanding := hs f
  rwa [hf] at hstanding

theorem waiting_of_standing {obs : List (Nat × List Operation)}
    (hs : ∀ f, Standing past f families[f]?) (hf : families[f]? = some (some obs)) :
    .cancels f ∉ past ∧ obs.map Prod.fst = places (.observes f) past := by
  have hstanding := hs f
  rwa [hf] at hstanding

theorem standing_entry (h : Entry past.length families new owed families')
    (hs : ∀ f, Standing past f families[f]?) (f : Nat) :
    Standing (past ++ new) f families'[f]? := by
  cases h with
  | shows e => exact (hs f).append (by simp) (by simp)
  | looks hf n => exact (hs f).append (by simp) (by simp)
  | @refuse g hg n =>
    by_cases hfg : f = g
    · subst hfg
      rw [hg]
      exact List.mem_append_right _ (List.mem_singleton_self _)
    · exact (hs f).append (by simpa using hfg) (by simp)
  | @fire g obs hg n =>
    by_cases hfg : f = g
    · subst hfg
      obtain ⟨hlt, _⟩ := List.getElem?_eq_some_iff.1 hg
      rw [List.getElem?_set_self hlt]
      exact List.mem_append_right _ (List.mem_singleton_self _)
    · rw [List.getElem?_set_ne (Ne.symm hfg)]
      exact (hs f).append (by simpa using hfg) (by simp)
  | @wait g obs hg body =>
    by_cases hfg : f = g
    · subst hfg
      obtain ⟨hlt, _⟩ := List.getElem?_eq_some_iff.1 hg
      obtain ⟨hnot, hobs⟩ := waiting_of_standing hs hg
      rw [List.getElem?_set_self hlt]
      refine ⟨by simpa using hnot, ?_⟩
      rw [List.map_append, hobs, places_append]
      simp [places, List.range_succ]
    · rw [List.getElem?_set_ne (Ne.symm hfg)]
      exact (hs f).append (by simp) (by simpa using hfg)
  | @late g hg =>
    by_cases hfg : f = g
    · subst hfg
      rw [hg]
      exact List.mem_append_left _ (cancelled_of_standing hs hg)
    · exact (hs f).append (by simp) (by simpa using hfg)

theorem told_entry {here : Nat} (h : Entry here families new owed families') : Told new := by
  cases h with
  | shows | refuse | fire | late => exact told_of_result rfl
  | looks hf n => exact told_pair rfl n
  | wait => exact (told_of_result rfl).append (told_of_result rfl)

theorem grounded_entry (h : Entry past.length families new owed families')
    (hs : ∀ f, Standing past f families[f]?) (j : Nat) (a : Act) (ha : new[j]? = some a) :
    a.Grounded (past ++ new.take j) := by
  cases h with
  | shows | refuse | fire | late =>
    obtain rfl := List.mem_singleton.1 (List.mem_of_getElem? ha)
    trivial
  | @looks f w hf n =>
    match j with
    | 0 =>
      obtain rfl := Option.some.inj ha
      have hstanding := hs f
      rw [hf] at hstanding
      rw [List.take_zero, List.append_nil]
      exact hstanding.isNone_iff
    | 1 =>
      obtain rfl := Option.some.inj ha
      trivial
    | j + 2 => cases ha
  | @wait f obs hf body =>
    match j with
    | 0 =>
      obtain rfl := Option.some.inj ha
      trivial
    | 1 =>
      obtain rfl := Option.some.inj ha
      exact getElem?_length_append past (.observes f) []
    | j + 2 => cases ha

theorem owed_life {a : Act} {k : Nat} (ha : a ∈ life f k) (hk : past[k]? = some (.observes f))
    (hf : .cancels f ∈ past) : a.Owed past := by
  rcases List.mem_cons.1 ha with rfl | ha
  · exact ⟨hk, hf⟩
  · obtain rfl := List.mem_singleton.1 ha
    exact ⟨hk, hf⟩

theorem owed_entry (h : Entry past.length families new owed families')
    (hs : ∀ f, Standing past f families[f]?) {a : Act} (ha : a ∈ owed) :
    a.Owed (past ++ new) := by
  have hanswer {f : Nat} {b : Bool} {n : String}
      (ha : a ∈ [.answers past.length f b, .shows (.noted n b)]) :
      a.Owed (past ++ [.cancels f]) := by
    rcases List.mem_cons.1 ha with rfl | ha
    · exact getElem?_length_append past (.cancels f) []
    · obtain rfl := List.mem_singleton.1 ha
      trivial
  cases h with
  | shows | looks | wait => cases ha
  | refuse hf n => exact hanswer ha
  | @fire f obs hf n =>
    rcases List.mem_append.1 ha with ha | ha
    · obtain ⟨k, hk, ha⟩ := List.mem_flatMap.1 ha
      rw [(waiting_of_standing hs hf).2, mem_places] at hk
      exact owed_life ha (getElem?_append_of_some hk _)
        (List.mem_append_right _ (List.mem_singleton_self _))
    · exact hanswer ha
  | @late f hf =>
    have hhere := getElem?_length_append past (.observes f) []
    have hcancelled : .cancels f ∈ past ++ [.observes f] :=
      List.mem_append_left _ (cancelled_of_standing hs hf)
    rcases List.mem_append.1 ha with ha | ha
    · exact owed_life ha hhere hcancelled
    · obtain rfl := List.mem_singleton.1 ha
      exact ⟨hhere, hcancelled⟩

/-- Nothing is owed for an observer that waits. -/
theorem not_isOf_of_owed {a : Act} {k : Nat} (h : a.Owed past) (hk : past[k]? = some (.observes f))
    (hf : .cancels f ∉ past) : a.isOf k = false := by
  refine beq_eq_false_iff_ne.2 fun ha => ?_
  cases a with
  | looks | cancels | observes | shows => cases ha
  | answers k' g b =>
    obtain rfl := Option.some.inj ha
    cases h.symm.trans hk
  | leaves k' g | starts k' g | ends k' g =>
    obtain rfl := Option.some.inj ha
    obtain rfl := Act.observes.inj (Option.some.inj (h.1.symm.trans hk))
    exact hf h.2

theorem filter_entry {p : Act → Bool} (h : (new ++ owed).filter p = []) :
    (past ++ (new ++ owed) ++ rest).filter p = (past ++ rest).filter p := by
  rw [List.filter_append, List.filter_append, h, List.append_nil, List.filter_append]

/-- Nothing is in the ledger yet for the call that begins here. -/
theorem filter_entry_here (hdues : Dues past (past ++ rest)) :
    (past ++ (new ++ owed) ++ rest).filter (Act.isOf past.length) =
      (new ++ owed).filter (Act.isOf past.length) := by
  have hnone := hdues past.length
  rw [due_of_length_le (Nat.le_refl _), List.filter_append, List.append_eq_nil_iff] at hnone
  rw [List.filter_append, List.filter_append, hnone.1, hnone.2, List.append_nil, List.nil_append]

theorem due_here (h : Entry past.length families new owed families')
    (hs : ∀ f, Standing past f families[f]?) :
    (new ++ owed).filter (Act.isOf past.length) = due (past ++ new) past.length := by
  have hcancels (f : Nat) : (past ++ [.cancels f])[past.length]? = some (.cancels f) :=
    getElem?_length_append past (.cancels f) []
  have hobserves (f : Nat) (l : List Act) :
      (past ++ .observes f :: l)[past.length]? = some (.observes f) :=
    getElem?_length_append past (.observes f) l
  cases h with
  | shows e => exact (due_of_not_isCall (by simp [Act.isCall])).symm
  | looks hf n => exact (due_of_not_isCall (by simp [Act.isCall])).symm
  | @refuse f hf n =>
    rw [due_of_cancels (hcancels f), take_length_append,
      decide_eq_false (not_not_intro (cancelled_of_standing hs hf))]
    simp [Act.isOf, Act.call]
  | @fire f obs hf n =>
    obtain ⟨hnot, hobs⟩ := waiting_of_standing hs hf
    have hnew : past.length ∉ places (.observes f) past := by
      rw [mem_places, List.getElem?_eq_none (Nat.le_refl _)]
      exact fun h => by cases h
    rw [due_of_cancels (hcancels f), take_length_append, decide_eq_true hnot, hobs,
      List.filter_append, List.filter_append, filter_flatMap_life nodup_places, if_neg hnew]
    simp [Act.isOf, Act.call]
  | @wait f obs hf body =>
    have hnot := (waiting_of_standing hs hf).1
    rw [due_of_early (hobserves f _) (by simpa using hnot), if_neg (by simpa using hnot)]
    simp [Act.isOf, Act.call]
  | @late f hf =>
    have hcancelled := cancelled_of_standing hs hf
    rw [due_of_late (hobserves f []) (by simpa using hcancelled)]
    simp [Act.isOf, Act.call, life]

/-- When a family is cancelled, the observers that wait become due. -/
theorem dues_fire {k : Nat} (hnot : .cancels f ∉ past) (howed : ∀ a ∈ rest, a.Owed past)
    (hdues : Dues past (past ++ rest)) (n : String) (hk : k ≠ past.length) :
    (past ++ ([Act.cancels f] ++ ((places (.observes f) past).flatMap (life f) ++
      [Act.answers past.length f true, Act.shows (.noted n true)])) ++ rest).filter (Act.isOf k) =
      due (past ++ [.cancels f]) k := by
  have hentered : ([Act.cancels f] ++ ((places (.observes f) past).flatMap (life f) ++
      [Act.answers past.length f true, Act.shows (.noted n true)])).filter (Act.isOf k) =
      if k ∈ places (.observes f) past then life f k else [] := by
    rw [List.filter_append, List.filter_append, filter_flatMap_life nodup_places]
    simp [Act.isOf, Act.call, Ne.symm hk]
  by_cases hwaits : k ∈ places (.observes f) past
  · have hplace := mem_places.1 hwaits
    have htake : .cancels f ∉ past.take k := fun hmem => hnot (List.mem_of_mem_take hmem)
    have hrest : rest.filter (Act.isOf k) = [] :=
      List.filter_eq_nil_iff.2 fun a ha hk' =>
        Bool.false_ne_true ((not_isOf_of_owed (howed a ha) hplace hnot).symm.trans hk')
    have hpast := hdues k
    rw [due_of_early hplace htake, if_neg hnot, List.filter_append, hrest,
      List.append_nil] at hpast
    have hlt : k ≤ past.length := Nat.le_of_lt (List.getElem?_eq_some_iff.1 hplace).1
    rw [List.filter_append, List.filter_append, hentered, if_pos hwaits, hrest, hpast,
      due_of_early (getElem?_append_of_some hplace _)
        (by rwa [List.take_append_of_le_length hlt]),
      if_pos (List.mem_append_right _ (List.mem_singleton_self _)), List.append_nil]
    rfl
  · rw [if_neg hwaits] at hentered
    rw [filter_entry hentered, hdues k]
    refine (due_append_cons hk (fun a ha => by cases ha) fun g hg hmem => ?_).symm
    obtain rfl := Act.cancels.inj (List.mem_singleton.1 hmem)
    exact absurd (mem_places.2 hg) hwaits

theorem dues_entry (h : Entry past.length families new owed families')
    (hs : ∀ f, Standing past f families[f]?) (howed : ∀ a ∈ rest, a.Owed past)
    (hdues : Dues past (past ++ rest)) :
    Dues (past ++ new) (past ++ (new ++ owed) ++ rest) := by
  intro k
  by_cases hk : k = past.length
  · subst hk
    exact (filter_entry_here hdues).trans (due_here h hs)
  cases h with
  | shows e =>
    rw [filter_entry rfl, hdues k]
    exact (due_append_of_not_isCall (by simp [Act.isCall])).symm
  | looks hf n =>
    rw [filter_entry rfl, hdues k]
    exact (due_append_of_not_isCall (by simp [Act.isCall])).symm
  | @refuse f hf n =>
    rw [filter_entry (by simp [Act.isOf, Act.call, Ne.symm hk]), hdues k]
    refine (due_append_cons hk (fun a ha => by cases ha) fun g _ hg => ?_).symm
    obtain rfl := Act.cancels.inj (List.mem_singleton.1 hg)
    exact cancelled_of_standing hs hf
  | @fire f obs hf n =>
    obtain ⟨hnot, hobs⟩ := waiting_of_standing hs hf
    rw [hobs]
    exact dues_fire hnot howed hdues n hk
  | wait hf body =>
    rw [filter_entry (by simp [Act.isOf, Act.call, Ne.symm hk]), hdues k]
    exact (due_append_cons hk (by simp [Act.isCall]) (by simp)).symm
  | late hf =>
    rw [filter_entry (by simp [Act.isOf, Act.call, life, Ne.symm hk]), hdues k]
    exact (due_append_cons hk (fun a ha => by cases ha) (by simp)).symm

/-- Before a family is cancelled there is nothing that a call to cancel it could run. -/
theorem not_isFiredBy {a : Act} {c : Nat} (h : a.Grounded past) (hf : .cancels f ∉ past)
    (hc : past.length ≤ c) : a.isFiredBy f c = false := by
  cases a with
  | looks | cancels | observes | leaves | shows => rfl
  | answers k g b =>
    refine beq_eq_false_iff_ne.2 ?_
    rintro rfl
    rw [Act.Grounded, List.getElem?_eq_none hc] at h
    cases h
  | starts k g | ends k g =>
    refine decide_eq_false ?_
    rintro ⟨rfl, _⟩
    exact hf h.2

theorem filter_isFiredBy_eq_nil (hgrounded : Grounded past) (howed : ∀ a ∈ rest, a.Owed past)
    (hf : .cancels f ∉ past) : (past ++ rest).filter (Act.isFiredBy f past.length) = [] := by
  refine List.filter_eq_nil_iff.2 fun a ha hfired => Bool.false_ne_true (hfired.symm.trans ?_).symm
  rcases List.mem_append.1 ha with ha | ha
  · obtain ⟨i, hi⟩ := List.mem_iff_getElem?.1 ha
    exact not_isFiredBy (hgrounded i a hi) (fun hmem => hf (List.mem_of_mem_take hmem))
      (List.length_take_le' ..)
  · exact not_isFiredBy (howed a ha).grounded hf (Nat.le_refl _)

theorem filter_isFiredBy_of_lt {ks : List Nat} {c : Nat} (hks : ∀ k ∈ ks, k < c) (f : Nat) :
    (ks.flatMap (life f)).filter (Act.isFiredBy f c) = ks.flatMap (life f) := by
  refine List.filter_eq_self.2 fun a ha => ?_
  obtain ⟨k, hk, ha⟩ := List.mem_flatMap.1 ha
  rcases List.mem_cons.1 ha with rfl | ha
  · exact decide_eq_true ⟨rfl, hks k hk⟩
  · obtain rfl := List.mem_singleton.1 ha
    exact decide_eq_true ⟨rfl, hks k hk⟩

theorem filter_isFiredBy_of_ne {f g : Nat} (h : f ≠ g) (ks : List Nat) (c : Nat) :
    (ks.flatMap (life f)).filter (Act.isFiredBy g c) = [] := by
  refine List.filter_eq_nil_iff.2 fun a ha => Bool.eq_false_iff.1 ?_
  obtain ⟨k, _, ha⟩ := List.mem_flatMap.1 ha
  rcases List.mem_cons.1 ha with rfl | ha
  · exact decide_eq_false fun hfg => h hfg.1
  · obtain rfl := List.mem_singleton.1 ha
    exact decide_eq_false fun hfg => h hfg.1

/-- An entry brings nothing that an older call to cancel runs. -/
theorem filter_isFiredBy_entry {c g : Nat} (h : Entry past.length families new owed families')
    (hs : ∀ f, Standing past f families[f]?) (hc : past[c]? = some (.cancels g)) :
    (new ++ owed).filter (Act.isFiredBy g c) = [] := by
  have hlt : c < past.length := (List.getElem?_eq_some_iff.1 hc).1
  cases h with
  | shows | looks | wait => rfl
  | refuse hf n => simp [Act.isFiredBy, Nat.ne_of_gt hlt]
  | @fire f obs hf n =>
    have hne : f ≠ g := by
      rintro rfl
      exact (waiting_of_standing hs hf).1 (List.mem_of_getElem? hc)
    rw [List.filter_append, List.filter_append, filter_isFiredBy_of_ne hne]
    simp [Act.isFiredBy, Nat.ne_of_gt hlt]
  | late hf => simp [Act.isFiredBy, life, Nat.lt_asymm hlt]

theorem fires_entry (h : Entry past.length families new owed families')
    (hs : ∀ f, Standing past f families[f]?) (hgrounded : Grounded past)
    (howed : ∀ a ∈ rest, a.Owed past) (hfires : Fires past (past ++ rest)) :
    Fires (past ++ new) (past ++ (new ++ owed) ++ rest) := by
  intro c g hc hfirst
  rcases Nat.lt_or_ge c past.length with hlt | hge
  · rw [List.getElem?_append_left hlt] at hc
    rw [List.take_append_of_le_length (Nat.le_of_lt hlt)] at hfirst ⊢
    rw [filter_entry (filter_isFiredBy_entry h hs hc), hfires c g hc hfirst]
  rw [List.getElem?_append_right hge] at hc
  have hmem := List.mem_of_getElem? hc
  have hplace {f : Nat} (hc : [Act.cancels f][c - past.length]? = some (.cancels g)) :
      c = past.length ∧ g = f := by
    obtain ⟨hlt, hget⟩ := List.getElem?_eq_some_iff.1 hc
    rw [List.getElem_singleton] at hget
    exact ⟨Nat.le_antisymm (Nat.sub_eq_zero_iff_le.1 (Nat.lt_one_iff.1 hlt)) hge,
      (Act.cancels.inj hget).symm⟩
  cases h with
  | shows | looks | wait | late => simp at hmem
  | @refuse f hf n =>
    obtain ⟨rfl, rfl⟩ := hplace hc
    rw [take_length_append] at hfirst
    exact absurd (cancelled_of_standing hs hf) hfirst
  | @fire f obs hf n =>
    obtain ⟨rfl, rfl⟩ := hplace hc
    obtain ⟨hnot, hobs⟩ := waiting_of_standing hs hf
    have hks : ∀ k ∈ places (.observes g) past, k < past.length := fun k hk =>
      (List.getElem?_eq_some_iff.1 (mem_places.1 hk)).1
    have hnone := filter_isFiredBy_eq_nil hgrounded howed hnot
    rw [List.filter_append, List.append_eq_nil_iff] at hnone
    rw [take_length_append, List.filter_append, List.filter_append, hnone.1, hnone.2,
      List.filter_append, List.filter_append, hobs, filter_isFiredBy_of_lt hks]
    simp [Act.isFiredBy]

end Entries

end PublishDesk.Cancellation
