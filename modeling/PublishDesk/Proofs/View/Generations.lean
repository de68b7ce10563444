import Mathlib.Algebra.Group.Nat.Defs
import PublishDesk.View.State

/-!
# Generations of the save indicator

The operations on what a view shows can be made in any order, and the generation that is to be
cleared can be any number, also one that has not been given out. `history` keeps what each of them
answered. `ViewState.Follows` says what the state holds of that: the number of changes of the
indicator, and the latest of them that still counts. Every operation keeps it (`Follows.perform`),
and `history_ordered` says what it comes to for the answers.
-/

namespace PublishDesk
namespace ViewState

inductive Operation where
  | status (status : HostStatus)
  | beginSave
  | finishSave (ok : Bool)
  | clear (generation : UInt64)
deriving DecidableEq, Repr

/-- What an operation answers. -/
inductive Answer where
  /-- Whether the status made a difference. -/
  | differs (differs : Bool)
  /-- The indicator has been set, in this generation. -/
  | set (generation : UInt64)
  | refused (refusal : SaveRefusal)
  /-- Whether the indicator has been cleared. -/
  | cleared (cleared : Bool)
deriving DecidableEq, Repr

def perform (s : ViewState) : Operation → Answer × ViewState
  | .status status => (.differs !s.sameStatus (s.applyStatus status), s.applyStatus status)
  | .beginSave => match s.beginSave with
    | (.ok generation, t) => (.set generation, t)
    | (.error r, t) => (.refused r, t)
  | .finishSave ok => (.set (s.finishSave ok).generation, s.finishSave ok)
  | .clear g => (.cleared (s.isClearable g), s.clear g)

/-- An operation with its answer, and the states before and after it. -/
structure Entry where
  operation : Operation
  answer : Answer
  before : ViewState
  after : ViewState
deriving DecidableEq, Repr

def entry (s : ViewState) (o : Operation) : Entry := ⟨o, (s.perform o).1, s, (s.perform o).2⟩

/-- What operations answer one after the other. -/
def history (s : ViewState) : List Operation → List Entry
  | [] => []
  | o :: os => s.entry o :: history (s.perform o).2 os

def performAll (s : ViewState) (os : List Operation) : ViewState :=
  os.foldl (fun s o => (s.perform o).2) s

namespace Entry

/-- The generation that is given out. -/
def generation? (e : Entry) : Option UInt64 :=
  match e.answer with
  | .set g => some g
  | _ => none

/-- The generation that is cleared. -/
def cleared? (e : Entry) : Option UInt64 :=
  match e.operation, e.answer with
  | .clear g, .cleared true => some g
  | _, _ => none

/-- Whether the indicator is changed: it is set, or it is cleared. -/
def isChange (e : Entry) : Bool := e.generation?.isSome || e.cleared?.isSome

/-- The indicator that a change leaves. -/
def indicator (e : Entry) : SaveIndicator :=
  match e.operation with
  | .beginSave => .inFlight
  | .finishSave ok => if ok then .succeeded else .failed
  | .status _ | .clear _ => .idle

end Entry

/-- The generations that have been given out. -/
def generations (past : List Entry) : List UInt64 := past.filterMap Entry.generation?

/-- The generations that have been cleared. -/
def clearings (past : List Entry) : List UInt64 := past.filterMap Entry.cleared?

/-- The latest change of the indicator. -/
def latest? (past : List Entry) : Option Entry := (past.filter Entry.isChange).getLast?

variable {past : List Entry} {s t : ViewState} {o : Operation} {e : Entry} {g : UInt64}

theorem generations_concat (past : List Entry) (e : Entry) :
    generations (past ++ [e]) = generations past ++ e.generation?.toList := by
  rw [generations, List.filterMap_append, generations]
  cases h : e.generation? <;> simp [h]

theorem clearings_concat (past : List Entry) (e : Entry) :
    clearings (past ++ [e]) = clearings past ++ e.cleared?.toList := by
  rw [clearings, List.filterMap_append, clearings]
  cases h : e.cleared? <;> simp [h]

theorem latest?_concat_of_change (h : e.isChange) (past : List Entry) :
    latest? (past ++ [e]) = some e := by
  rw [latest?, List.filter_append, List.filter_cons_of_pos h, List.filter_nil,
    List.getLast?_concat]

theorem latest?_concat_of_not (h : e.isChange = false) (past : List Entry) :
    latest? (past ++ [e]) = latest? past := by
  rw [latest?, List.filter_append, List.filter_cons_of_neg (by simp [h]), List.filter_nil,
    List.append_nil, latest?]

/-! ## What a state holds of the past -/

structure Follows (past : List Entry) (s : ViewState) : Prop where
  numbered : (generations past).map UInt64.toNat = List.range' 1 s.generation.toNat
  save : s.save = ((latest? past).map Entry.indicator).getD .idle
  /-- Unless it has been cleared, the latest change has the generation of the state. -/
  current : (latest? past).bind Entry.generation? =
    if s.save = .idle then none else some s.generation
  /-- What has been cleared cannot be cleared again. -/
  spent : ∀ g ∈ clearings past, g.toNat ≤ s.generation.toNat ∧
    (g = s.generation → s.save = .idle)
  nodup : (clearings past).Nodup

theorem follows_initial : Follows [] {} := ⟨rfl, rfl, rfl, nofun, .nil⟩

/-- An operation that does not touch the indicator. -/
theorem Follows.stay (H : Follows past s) (hgeneration : e.generation? = none)
    (hcleared : e.cleared? = none) (hsave : t.save = s.save) (ht : t.generation = s.generation) :
    Follows (past ++ [e]) t := by
  have hchange : e.isChange = false := by rw [Entry.isChange, hgeneration, hcleared]; rfl
  constructor
  case numbered =>
    rw [generations_concat, hgeneration, ht]
    exact (List.append_nil (generations past)).symm ▸ H.numbered
  case save => rw [latest?_concat_of_not hchange, hsave, H.save]
  case current => rw [latest?_concat_of_not hchange, hsave, ht, H.current]
  case spent =>
    rw [clearings_concat, hcleared, hsave, ht]
    exact (List.append_nil (clearings past)).symm ▸ H.spent
  case nodup =>
    rw [clearings_concat, hcleared]
    exact (List.append_nil (clearings past)).symm ▸ H.nodup

/-- An operation that sets the indicator. -/
theorem Follows.set (H : Follows past s) (hlt : past.length + 1 < 2 ^ 64)
    (hgeneration : e.generation? = some (s.generation + 1)) (hcleared : e.cleared? = none)
    (hsave : t.save = e.indicator) (hidle : t.save ≠ .idle)
    (ht : t.generation = s.generation + 1) : Follows (past ++ [e]) t := by
  have hchange : e.isChange = true := by rw [Entry.isChange, hgeneration]; rfl
  -- The counter does not overflow: it counts operations.
  have hcount : s.generation.toNat ≤ past.length := by
    have hlength := congrArg List.length H.numbered
    rw [List.length_map, List.length_range'] at hlength
    exact hlength ▸ List.length_filterMap_le ..
  have hnext : (s.generation + 1).toNat = s.generation.toNat + 1 := by
    rw [UInt64.toNat_add]
    exact Nat.mod_eq_of_lt (Nat.lt_of_le_of_lt (Nat.succ_le_succ hcount) hlt)
  constructor
  case numbered =>
    rw [generations_concat, hgeneration, List.map_append, H.numbered, ht, hnext,
      List.range'_1_concat, Nat.add_comm 1, ← hnext]
    rfl
  case save => rw [latest?_concat_of_change hchange]; exact hsave
  case current =>
    rw [latest?_concat_of_change hchange, if_neg hidle, ht]
    exact hgeneration
  case spent =>
    rw [clearings_concat, hcleared, ht, hnext]
    intro g hg
    obtain ⟨hle, -⟩ := H.spent g (by simpa using hg)
    refine ⟨Nat.le_succ_of_le hle, ?_⟩
    rintro rfl
    omega
  case nodup =>
    rw [clearings_concat, hcleared]
    exact (List.append_nil (clearings past)).symm ▸ H.nodup

/-- An operation that clears the indicator. -/
theorem Follows.clear (H : Follows past s) (hgeneration : e.generation? = none)
    (hcleared : e.cleared? = some s.generation) (hs : s.save ≠ .idle)
    (hindicator : e.indicator = .idle) (hsave : t.save = .idle) (ht : t.generation = s.generation) :
    Follows (past ++ [e]) t := by
  have hchange : e.isChange = true := by rw [Entry.isChange, hcleared]; exact Bool.or_true _
  have hnew : s.generation ∉ clearings past := fun h => hs ((H.spent _ h).2 rfl)
  constructor
  case numbered =>
    rw [generations_concat, hgeneration, ht]
    exact (List.append_nil (generations past)).symm ▸ H.numbered
  case save => rw [latest?_concat_of_change hchange, hsave]; exact hindicator.symm
  case current => rw [latest?_concat_of_change hchange, if_pos hsave]; exact hgeneration
  case spent =>
    rw [clearings_concat, hcleared, ht]
    intro g hg
    refine ⟨?_, fun _ => hsave⟩
    obtain hg | hg := List.mem_append.1 hg
    · exact (H.spent g hg).1
    · exact Nat.le_of_eq (congrArg _ (List.mem_singleton.1 hg))
  case nodup =>
    rw [clearings_concat, hcleared]
    refine List.nodup_append.2 ⟨H.nodup, List.nodup_cons.2 ⟨nofun, .nil⟩, ?_⟩
    rintro g hg g' hg' rfl
    exact hnew (List.mem_singleton.1 hg' ▸ hg)

/-! ## Operations -/

theorem isClearable_iff_and : s.isClearable g ↔ s.generation = g ∧ s.save ≠ .idle := by
  rw [isClearable, Bool.and_eq_true, beq_iff_eq, bne_iff_ne]

theorem perform_beginSave (s : ViewState) : s.perform .beginSave =
    if s.save = .inFlight then (.refused .inFlight, s)
    else (.set (s.generation + 1), s.setIndicator .inFlight) := by
  by_cases hs : s.save = .inFlight
  · rw [perform, beginSave, if_pos hs, if_pos hs]
  · rw [perform, beginSave, if_neg hs, if_neg hs]
    rfl

theorem perform_clear (s : ViewState) (g : UInt64) : s.perform (.clear g) =
    if s.isClearable g then (.cleared true, { s with save := .idle }) else (.cleared false, s) := by
  rw [perform, ViewState.clear]
  split
  · next h => rw [h]
  · next h => rw [Bool.eq_false_iff.2 h]

theorem Follows.perform (H : Follows past s) (hlt : past.length + 1 < 2 ^ 64) (o : Operation) :
    Follows (past ++ [s.entry o]) (s.perform o).2 := by
  cases o with
  | status status => exact H.stay rfl rfl rfl rfl
  | beginSave =>
    rw [entry, perform_beginSave]
    split
    · exact H.stay rfl rfl rfl rfl
    · exact H.set hlt rfl rfl rfl nofun rfl
  | finishSave ok =>
    refine H.set hlt rfl rfl rfl ?_ rfl
    cases ok <;> exact nofun
  | clear g =>
    rw [entry, perform_clear]
    split
    · next hg =>
      obtain ⟨rfl, hs⟩ := isClearable_iff_and.1 hg
      exact H.clear rfl rfl hs rfl rfl rfl
    · exact H.stay rfl rfl rfl rfl

/-! ## Histories -/

theorem Follows.performAll (H : Follows past s) (os : List Operation)
    (hlt : past.length + os.length < 2 ^ 64) :
    Follows (past ++ history s os) (s.performAll os) := by
  induction os generalizing past s with
  | nil => exact (List.append_nil past).symm ▸ H
  | cons o os ih =>
    rw [List.length_cons] at hlt
    have hrest : (past ++ [s.entry o]).length + os.length < 2 ^ 64 := by
      rw [List.length_append, List.length_singleton]
      omega
    have H' := ih (H.perform (by omega) o) hrest
    rwa [List.append_assoc] at H'

/-- An entry of a history has been made after those before it. -/
theorem exists_of_history {os : List Operation} {rest : List Entry}
    (h : history s os = past ++ e :: rest) :
    ∃ os' o, past = history s os' ∧ os'.length ≤ os.length ∧ e = (s.performAll os').entry o := by
  induction os generalizing s past with
  | nil => cases past <;> cases h
  | cons o os ih =>
    cases past with
    | nil => exact ⟨[], o, rfl, Nat.zero_le _, (List.cons.inj h).1.symm⟩
    | cons e' past =>
      obtain ⟨rfl, hrest⟩ := List.cons.inj h
      obtain ⟨os', o', rfl, hle, rfl⟩ := ih hrest
      exact ⟨o :: os', o', rfl, Nat.succ_le_succ hle, rfl⟩

/-- What operations answer, whatever their order. -/
structure Ordered (l : List Entry) : Prop where
  /-- Generations are given out one after the other. -/
  generations : (generations l).map UInt64.toNat = List.range' 1 (generations l).length
  /-- The generation that can be cleared is that of the latest change, if it has one. -/
  cleared : ∀ past e rest g, l = past ++ e :: rest → e.operation = .clear g →
    (e.answer = .cleared true ↔ (latest? past).bind Entry.generation? = some g)
  nodup : (clearings l).Nodup
  /-- A save is refused while the latest change is that another one has begun. -/
  refused : ∀ past e rest, l = past ++ e :: rest → e.operation = .beginSave →
    ((∃ r, e.answer = .refused r) ↔ (latest? past).map Entry.operation = some .beginSave)
  unchanged : ∀ e ∈ l, (∃ r, e.answer = .refused r) ∨ e.answer = .cleared false →
    e.after = e.before
  /-- Only a status changes what is shown of the server and of the review, -/
  kept : ∀ e ∈ l, (∀ status, e.operation ≠ .status status) →
    e.after.server = e.before.server ∧ e.after.reviewLink = e.before.reviewLink
  /-- and it changes nothing else. -/
  status : ∀ e ∈ l, ∀ status, e.operation = .status status →
    e.after.save = e.before.save ∧ e.after.generation = e.before.generation

/-! ## What is read off a state -/

/-- The answer to a request to clear a generation. -/
theorem Follows.cleared_iff (H : Follows past s) (g : UInt64) :
    (s.entry (.clear g)).answer = .cleared true ↔
      (latest? past).bind Entry.generation? = some g := by
  change Answer.cleared (s.isClearable g) = _ ↔ _
  rw [Answer.cleared.injEq, isClearable_iff_and, H.current]
  split
  · next hs => exact ⟨fun h => absurd hs h.2, nofun⟩
  · next hs => exact ⟨fun h => congrArg some h.1, fun h => ⟨Option.some.inj h, hs⟩⟩

/-- The answer to a save that is to begin. -/
theorem Follows.refused_iff (H : Follows past s) :
    (∃ r, (s.entry .beginSave).answer = .refused r) ↔
      (latest? past).map Entry.operation = some .beginSave := by
  have hanswer : (∃ r, (s.entry .beginSave).answer = .refused r) ↔ s.save = .inFlight := by
    rw [entry, perform_beginSave]
    split
    · next hs => exact ⟨fun _ => hs, fun _ => ⟨_, rfl⟩⟩
    · next hs => exact ⟨fun ⟨_, h⟩ => (nomatch h), fun h => absurd h hs⟩
  rw [hanswer, H.save]
  cases latest? past with
  | none => exact ⟨nofun, nofun⟩
  | some c =>
    rw [Option.map_some, Option.map_some, Option.getD_some, Option.some.injEq, Entry.indicator]
    cases c.operation with
    | finishSave ok => exact ⟨fun h => (by cases ok <;> cases h), nofun⟩
    | beginSave => exact ⟨fun _ => rfl, fun _ => rfl⟩
    | status _ | clear _ => exact ⟨nofun, nofun⟩

/-- An operation that fails changes nothing. -/
theorem entry_unchanged (o : Operation)
    (h : (∃ r, (s.entry o).answer = .refused r) ∨ (s.entry o).answer = .cleared false) :
    (s.entry o).after = s := by
  cases o with
  | status status => simp [entry, ViewState.perform] at h
  | finishSave ok => simp [entry, ViewState.perform] at h
  | beginSave =>
    rw [entry, perform_beginSave] at h ⊢
    split at h
    · next hs => rw [if_pos hs]
    · simp at h
  | clear g =>
    rw [entry, perform_clear] at h ⊢
    split at h
    · simp at h
    · next hg => rw [if_neg hg]

theorem entry_kept (h : ∀ status, o ≠ .status status) :
    (s.entry o).after.server = s.server ∧ (s.entry o).after.reviewLink = s.reviewLink := by
  cases o with
  | status status => exact absurd rfl (h status)
  | finishSave ok => exact ⟨rfl, rfl⟩
  | beginSave =>
    rw [entry, perform_beginSave]
    split <;> exact ⟨rfl, rfl⟩
  | clear g =>
    rw [entry, perform_clear]
    split <;> exact ⟨rfl, rfl⟩

/-- Generations count the changes that set the indicator; the latest change says what can be cleared
and whether a save can begin. -/
theorem history_ordered (os : List Operation) (hlt : os.length < 2 ^ 64) :
    Ordered (history {} os) := by
  have H := follows_initial.performAll os (by simpa using hlt)
  rw [List.nil_append] at H
  have hsplit {past : List Entry} {e : Entry} {rest : List Entry}
      (h : history {} os = past ++ e :: rest) : ∃ s o, Follows past s ∧ e = s.entry o := by
    obtain ⟨os', o, rfl, hle, rfl⟩ := exists_of_history h
    have H' := follows_initial.performAll os'
      (by rw [List.length_nil, Nat.zero_add]; exact Nat.lt_of_le_of_lt hle hlt)
    exact ⟨_, o, H', rfl⟩
  have hmem {e : Entry} (he : e ∈ history {} os) : ∃ s o, e = entry s o := by
    obtain ⟨past, rest, h⟩ := List.append_of_mem he
    obtain ⟨s, o, -, he⟩ := hsplit h
    exact ⟨s, o, he⟩
  constructor
  case generations =>
    have hlength := congrArg List.length H.numbered
    rw [List.length_map, List.length_range'] at hlength
    rw [hlength, H.numbered]
  case cleared =>
    intro past e rest g h he
    obtain ⟨s, o, H, rfl⟩ := hsplit h
    obtain rfl : o = .clear g := he
    exact H.cleared_iff g
  case nodup => exact H.nodup
  case refused =>
    intro past e rest h he
    obtain ⟨s, o, H, rfl⟩ := hsplit h
    obtain rfl : o = .beginSave := he
    exact H.refused_iff
  case unchanged =>
    intro e he h
    obtain ⟨s, o, rfl⟩ := hmem he
    exact entry_unchanged o h
  case kept =>
    intro e he h
    obtain ⟨s, o, rfl⟩ := hmem he
    exact entry_kept h
  case status =>
    intro e he status h
    obtain ⟨s, o, rfl⟩ := hmem he
    obtain rfl : o = .status status := h
    exact ⟨rfl, rfl⟩

/-- A generation is cleared once and only while it is the latest, and one that has not been given
out is not cleared at all. -/
theorem history_ordered_stale :
    let os : List Operation :=
      [.clear 0, .beginSave, .beginSave, .finishSave false, .clear 1, .clear 3, .clear 2, .clear 2]
    os.length < 2 ^ 64 ∧
      (history {} os).map Entry.answer = [.cleared false, .set 1, .refused .inFlight, .set 2,
        .cleared false, .cleared false, .cleared true, .cleared false] ∧
      (clearings (history {} os)).Nodup :=
  ⟨by decide, by decide, (history_ordered _ (by decide)).nodup⟩

end ViewState
end PublishDesk
