import PublishDesk.Proofs.Client.SaveIndicator
import PublishDesk.Proofs.Connection.Sides

/-!
# The save indicator and its timers

Every change of the save indicator leaves a timer behind, and none is ever taken back, so any number
of old timers may be under way beside the one that counts. What a view shows does not depend on
them: it is the indicator of the latest change, until the time of a timer has passed since
(`SaveIndicator.after`). `Session.Timed` is the invariant; every act of a view keeps it
(`Session.Timed.act`), and `Session.acts_timely` says what it comes to for a whole run.
-/

namespace PublishDesk

open Text (trim)

/-- What a view shows at a time, given the changes of its indicator so far and how long each of them
is shown. -/
def SaveIndicator.after (shown : Nat) (changes : List (Nat × SaveIndicator)) (now : Nat) :
    SaveIndicator :=
  match changes.getLast? with
  | none => .idle
  | some (time, i) => if now < time + shown then i else .idle

/-- The indicator that a message sets. -/
def Message.indicator? : Message → Option SaveIndicator
  | .saveResult ok => some (.ofOutcome ok)
  | _ => none

namespace Session

inductive Act where
  | save (message : String)
  | receive (frame : String)
  | advance (milliseconds : Nat)

def act (s : Session) : Act → Session
  | .save message => (s.requestSave message).2
  | .receive frame => (s.dispatch frame).2
  | .advance milliseconds => s.advance milliseconds

def acts (s : Session) (l : List Act) : Session := l.foldl act s

/-- The indicator that an act sets: that of a request that is accepted, or of a save result that is
taken. -/
def sets? (s : Session) : Act → Option SaveIndicator
  | .save message => (s.requestSave message).1.toOption.map fun _ => .inFlight
  | .receive frame => match (s.dispatch frame).1 with
    | .ok _ => (Message.decode frame).toOption.bind Message.indicator?
    | .error _ => none
  | .advance _ => none

/-- The changes of the indicator in a run, with their times. -/
def changes (s : Session) : List Act → List (Nat × SaveIndicator)
  | [] => []
  | a :: l => (s.sets? a).toList.map (s.now, ·) ++ changes (s.act a) l

/-- How much time passes in a run. -/
def duration : List Act → Nat
  | [] => 0
  | .advance milliseconds :: l => milliseconds + duration l
  | _ :: l => duration l

variable {s t : Session} {past : List (Nat × SaveIndicator)} {message frame : String}

/-! ## Timers that ring -/

/-- A timer rings for the generation that it has been set for, and for no other. -/
theorem ring_clear (s : Session) (g : UInt64) :
    ∃ state published, s.ring (.clear g) = { s with state := state, published := published } ∧
      state.generation = s.state.generation ∧
      state.save = if g = s.state.generation then .idle else s.state.save := by
  rw [ring]
  split
  · next hclear =>
    have hg : s.state.generation = g := by
      simp only [ViewState.isClearable, Bool.and_eq_true, beq_iff_eq] at hclear
      exact hclear.1
    rw [ViewState.clear, if_pos hclear]
    exact ⟨_, _, rfl, rfl, (if_pos hg.symm).symm⟩
  · next hclear =>
    refine ⟨_, _, rfl, rfl, ?_⟩
    split
    · next hg => simpa [ViewState.isClearable, hg] using hclear
    · rfl

theorem foldl_ring_of_clear {actions : List Alarm} (hactions : ∀ a ∈ actions, ∃ g, a = .clear g) :
    ∃ state published, actions.foldl ring s = { s with state := state, published := published } ∧
      state.generation = s.state.generation ∧
      state.save = if .clear s.state.generation ∈ actions then .idle else s.state.save := by
  induction actions generalizing s with
  | nil => exact ⟨s.state, s.published, rfl, rfl, rfl⟩
  | cons a actions ih =>
    obtain ⟨⟨g, rfl⟩, hrest⟩ := List.forall_mem_cons.1 hactions
    obtain ⟨state, published, hring, hgeneration, hsave⟩ := ih (s := s.ring (.clear g)) hrest
    obtain ⟨state', published', hs, hgeneration', hsave'⟩ := s.ring_clear g
    rw [hs] at hring hgeneration hsave
    refine ⟨state, published, ?_, hgeneration.trans hgeneration', ?_⟩
    · rw [List.foldl_cons, hs, hring]
    · rw [hsave, hgeneration', hsave']
      by_cases hg : s.state.generation = g
      · simp [hg]
      · simp [hg, Ne.symm hg]

/-! ## The invariant -/

/-- The indicator has changed so far as the list says. Each timer has been set for one of the
changes, and the latest change is shown until its timer has rung. -/
structure Timed (past : List (Nat × SaveIndicator)) (s : Session) : Prop where
  connected : s.bus.outbound.isSome
  generation : s.state.generation.toNat = past.length
  timers : ∀ a ∈ s.alarms, ∃ g, a.2 = .clear g ∧ g.toNat ≤ past.length ∧
    (g = s.state.generation → ∀ c, past.getLast? = some c → a.1 = c.1 + s.settings.indicatorClear)
  idle : past = [] → s.state.save = .idle
  latest : ∀ c, past.getLast? = some c →
    s.state.save = c.2 ∧
        (c.1 + s.settings.indicatorClear, .clear s.state.generation) ∈ s.alarms ∨
      s.state.save = .idle ∧ c.1 + s.settings.indicatorClear ≤ s.now

/-- Between timers, a view shows what the changes say. -/
theorem Timed.save_eq (H : Timed past s) (h : s.Rested) :
    s.state.save = .after s.settings.indicatorClear past s.now := by
  unfold SaveIndicator.after
  split
  · next hnone => exact H.idle (List.getLast?_eq_none_iff.1 hnone)
  · next time i hlast =>
    obtain ⟨hsave, hmem⟩ | ⟨hsave, hle⟩ := H.latest _ hlast
    · have hlt : s.now < time + s.settings.indicatorClear := h _ hmem
      rw [if_pos hlt, hsave]
    · rw [if_neg (Nat.not_lt.2 hle), hsave]

theorem Timed.setNow (H : Timed past s) {now : Nat} (h : s.now ≤ now) :
    Timed past { s with now := now } where
  connected := H.connected
  generation := H.generation
  timers := H.timers
  idle := H.idle
  latest c hc := (H.latest c hc).imp id fun h' => ⟨h'.1, Nat.le_trans h'.2 h⟩

/-- Only the timer of the latest change has an effect when it rings. -/
theorem Timed.ringDue (H : Timed past s) :
    Timed past s.ringDue ∧ s.ringDue.Rested ∧ s.ringDue.now = s.now ∧
      s.ringDue.settings = s.settings ∧ s.ringDue.bus = s.bus := by
  have hclears (a : Alarm) (ha : a ∈ (s.alarms.filter (·.1 ≤ s.now)).map (·.2)) :
      ∃ g, a = .clear g := by
    obtain ⟨b, hb, rfl⟩ := List.mem_map.1 ha
    obtain ⟨g, hg, -⟩ := H.timers b (List.mem_of_mem_filter hb)
    exact ⟨g, hg⟩
  obtain ⟨state, published, hring, hgeneration, hsave⟩ :=
    foldl_ring_of_clear (s := { s with alarms := s.alarms.filter (s.now < ·.1) }) hclears
  rw [Session.ringDue, hring]
  refine ⟨⟨H.connected, ?_, ?_, fun hpast => ?_, fun c hc => ?_⟩, fun a ha => ?_, rfl, rfl, rfl⟩
  · exact (congrArg _ hgeneration).trans H.generation
  · intro a ha
    rw [hgeneration]
    exact H.timers a (List.mem_of_mem_filter ha)
  · simp only [hsave, H.idle hpast, ite_self]
  · simp only [hsave, hgeneration]
    obtain ⟨hshown, hmem⟩ | ⟨hidle, hle⟩ := H.latest c hc
    · by_cases hdue : c.1 + s.settings.indicatorClear ≤ s.now
      · have hrung : Alarm.clear s.state.generation ∈
            (s.alarms.filter (·.1 ≤ s.now)).map (·.2) :=
          List.mem_map.2 ⟨_, List.mem_filter.2 ⟨hmem, decide_eq_true hdue⟩, rfl⟩
        exact .inr ⟨if_pos hrung, hdue⟩
      · -- No timer of this generation is due, since all of them are set for the same time.
        have hrung : Alarm.clear s.state.generation ∉
            (s.alarms.filter (·.1 ≤ s.now)).map (·.2) := by
          intro h
          obtain ⟨b, hb, hbg⟩ := List.mem_map.1 h
          obtain ⟨hb, hle⟩ := List.mem_filter.1 hb
          obtain ⟨g, hg, -, htime⟩ := H.timers b hb
          obtain rfl : g = s.state.generation := Alarm.clear.inj (hg.symm.trans hbg)
          exact hdue (htime rfl c hc ▸ of_decide_eq_true hle)
        exact .inl ⟨(if_neg hrung).trans hshown,
          List.mem_filter.2 ⟨hmem, decide_eq_true (Nat.lt_of_not_le hdue)⟩⟩
    · exact .inr ⟨by rw [hidle, ite_self], hle⟩
  · exact of_decide_eq_true (List.mem_filter.1 ha).2

/-- However much time passes, and whatever rings meanwhile. -/
theorem Timed.elapse (H : Timed past s) {target now : Nat} (hnow : s.now ≤ now)
    (htarget : now ≤ target) :
    Timed past (s.elapse target now) ∧ (s.elapse target now).Rested ∧
      (s.elapse target now).now = target ∧ (s.elapse target now).settings = s.settings ∧
      (s.elapse target now).bus = s.bus := by
  -- The time jumps from one timer to the next, so nothing is due in between.
  fun_induction Session.elapse target now s with
  | case1 now s r hnext =>
    obtain ⟨H', -, hnow', hkept⟩ := (H.setNow hnow).ringDue
    have halarms := List.map_eq_nil_iff.1 (List.min?_eq_none_iff.1 hnext)
    refine ⟨H'.setNow (hnow'.trans_le htarget), fun a ha => ?_, rfl, hkept⟩
    rw [show _ = [] from halarms] at ha
    cases ha
  | case2 now s r next hnext h ih =>
    obtain ⟨H', -, hnow', hsettings, hbus⟩ := (H.setNow hnow).ringDue
    obtain ⟨H'', hrested, hnow'', hsettings', hbus'⟩ :=
      ih H' (hnow'.trans_le (Nat.le_of_lt h.1)) h.2
    exact ⟨H'', hrested, hnow'', hsettings'.trans hsettings, hbus'.trans hbus⟩
  | case3 now s r next hnext h =>
    obtain ⟨H', hrested, hnow', hkept⟩ := (H.setNow hnow).ringDue
    obtain ⟨⟨b, hb, rfl⟩, hle⟩ := of_nextDue?_eq_some hnext
    refine ⟨H'.setNow (hnow'.trans_le htarget), fun a ha => ?_, rfl, hkept⟩
    have hlater : r.now < b.1 := hrested b hb
    have hge := hle a ha
    rw [show r.now = now from hnow'] at hlater
    change target < a.1
    omega

/-! ## Changes -/

/-- A change sets a timer of its own, and the timers before it no longer count. -/
theorem Timed.change (H : Timed past s) (hclear : 0 < s.settings.indicatorClear)
    (hrested : s.Rested) {i : SaveIndicator} (hlt : (past ++ [(s.now, i)]).length < 2 ^ 64)
    (hbus : t.bus.outbound.isSome) (hstate : t.state = s.state.setIndicator i)
    (hsettings : t.settings = s.settings) (hnow : t.now = s.now)
    (halarms : t.alarms = s.alarms ++ [(s.now + s.settings.indicatorClear,
      .clear (s.state.setIndicator i).generation)]) :
    Timed (past ++ [(s.now, i)]) t ∧ t.Rested := by
  have hgeneration : (s.state.generation + 1).toNat = past.length + 1 := by
    rw [UInt64.toNat_add, H.generation]
    rw [List.length_append] at hlt
    exact Nat.mod_eq_of_lt hlt
  refine ⟨⟨hbus, ?_, fun a ha => ?_, fun h => ?_, fun c hc => ?_⟩, fun a ha => ?_⟩
  · rw [hstate, List.length_append]
    exact hgeneration
  · rw [halarms] at ha
    rw [hstate, hsettings, List.length_append]
    obtain ha | ha := List.mem_append.1 ha
    · obtain ⟨g, hg, hle, -⟩ := H.timers a ha
      refine ⟨g, hg, Nat.le_succ_of_le hle, ?_⟩
      rintro rfl
      change (s.state.generation + 1).toNat ≤ past.length at hle
      omega
    · obtain rfl := List.mem_singleton.1 ha
      refine ⟨_, rfl, Nat.le_of_eq hgeneration, fun _ c hc => ?_⟩
      rw [List.getLast?_concat] at hc
      cases hc
      rfl
  · exact absurd h (List.concat_ne_nil _ _)
  · rw [List.getLast?_concat] at hc
    cases hc
    refine .inl ⟨by rw [hstate]; rfl, ?_⟩
    rw [halarms, hstate, hsettings]
    exact List.mem_append_right _ (.head _)
  · rw [halarms] at ha
    rw [hnow]
    obtain ha | ha := List.mem_append.1 ha
    · exact hrested a ha
    · obtain rfl := List.mem_singleton.1 ha
      exact Nat.lt_add_of_pos_right hclear

/-- A frame that is taken is handled as its message; any other frame leaves no trace. -/
theorem dispatch_cases (s : Session) (frame : String) :
    (∃ e, s.dispatch frame = (.error e, s)) ∨
      ∃ m, Message.decode frame = .ok m ∧ s.dispatch frame = (.ok m.kind, s.handle m) := by
  rw [dispatch]
  obtain ⟨e, he⟩ | ⟨m, h, hm, -, hroute⟩ := s.bus.route_cases frame
  · rw [Bus.route_of_stops he]
    exact .inl ⟨e, rfl⟩
  · rw [hroute]
    exact .inr ⟨m, hm, congrArg _ (if_pos rfl)⟩

theorem Timed.handle (H : Timed past s) (hclear : 0 < s.settings.indicatorClear)
    (hrested : s.Rested) {m : Message}
    (hlt : (past ++ m.indicator?.toList.map (s.now, ·)).length < 2 ^ 64) :
    Timed (past ++ m.indicator?.toList.map (s.now, ·)) (s.handle m) ∧ (s.handle m).Rested ∧
      (s.handle m).now = s.now ∧ (s.handle m).settings = s.settings := by
  cases m with
  | ping | requestSave message => exact ⟨(List.append_nil past).symm ▸ H, hrested, rfl, rfl⟩
  | pong status =>
    refine ⟨?_, ?_⟩ <;> rw [Session.handle] <;> split
    · exact (List.append_nil past).symm ▸ H
    · exact (List.append_nil past).symm ▸ ⟨H.connected, H.generation, H.timers, H.idle, H.latest⟩
    · exact ⟨hrested, rfl, rfl⟩
    · exact ⟨hrested, rfl, rfl⟩
  | saveResult ok =>
    obtain ⟨H', hrested'⟩ := H.change hclear hrested hlt (t := s.handle (.saveResult ok))
      H.connected rfl rfl rfl rfl
    exact ⟨H', hrested', rfl, rfl⟩

/-! ## Runs -/

theorem Timed.act (H : Timed past s) (hclear : 0 < s.settings.indicatorClear) (hrested : s.Rested)
    {a : Act} (hlt : (past ++ (s.sets? a).toList.map (s.now, ·)).length < 2 ^ 64) :
    Timed (past ++ (s.sets? a).toList.map (s.now, ·)) (s.act a) ∧ (s.act a).Rested ∧
      (s.act a).now = s.now + duration [a] ∧ (s.act a).settings = s.settings := by
  cases a with
  | save message =>
    obtain ⟨r, h⟩ | ⟨-, -, h⟩ := requestSave_cases message s
    · have hset : s.sets? (.save message) = none := by rw [sets?, h]; rfl
      have hact : s.act (.save message) = s := by rw [Session.act, h]
      rw [hset, hact]
      exact ⟨(List.append_nil past).symm ▸ H, hrested, rfl, rfl⟩
    · have hset : s.sets? (.save message) = some .inFlight := by rw [sets?, h]; rfl
      have hact : s.act (.save message) = ((s.publish (s.state.setIndicator .inFlight)).post
          (.requestSave message)).scheduleClear := by
        rw [Session.act, h]
      rw [hset] at hlt ⊢
      rw [hact]
      obtain ⟨H', hrested'⟩ := H.change hclear hrested hlt
        (t := ((s.publish (s.state.setIndicator .inFlight)).post
          (.requestSave message)).scheduleClear) (Option.isSome_map.trans H.connected)
        rfl rfl rfl rfl
      exact ⟨H', hrested', rfl, rfl⟩
  | receive frame =>
    obtain ⟨e, hdispatch⟩ | ⟨m, hm, hdispatch⟩ := s.dispatch_cases frame
    · have hset : s.sets? (.receive frame) = none := by rw [sets?, hdispatch]
      have hact : s.act (.receive frame) = s := by rw [Session.act, hdispatch]
      rw [hset, hact]
      exact ⟨(List.append_nil past).symm ▸ H, hrested, rfl, rfl⟩
    · have hset : s.sets? (.receive frame) = m.indicator? := by rw [sets?, hdispatch, hm]; rfl
      have hact : s.act (.receive frame) = s.handle m := by rw [Session.act, hdispatch]
      rw [hset] at hlt ⊢
      rw [hact]
      exact H.handle hclear hrested hlt
  | advance milliseconds =>
    obtain ⟨H', hrested', hnow, hsettings, -⟩ :=
      H.elapse (Nat.le_refl s.now) (Nat.le_add_right s.now milliseconds)
    exact ⟨(List.append_nil past).symm ▸ H', hrested', hnow, hsettings⟩

theorem duration_cons (a : Act) (l : List Act) : duration (a :: l) = duration [a] + duration l := by
  cases a <;> simp [duration]

theorem Timed.acts (H : Timed past s) (hclear : 0 < s.settings.indicatorClear) (hrested : s.Rested)
    {l : List Act} (hlt : (past ++ s.changes l).length < 2 ^ 64) :
    Timed (past ++ s.changes l) (s.acts l) ∧ (s.acts l).Rested ∧
      (s.acts l).now = s.now + duration l ∧ (s.acts l).settings = s.settings := by
  induction l generalizing s past with
  | nil => exact ⟨(List.append_nil past).symm ▸ H, hrested, rfl, rfl⟩
  | cons a l ih =>
    rw [changes, ← List.append_assoc] at hlt ⊢
    have hfirst : (past ++ (s.sets? a).toList.map (s.now, ·)).length < 2 ^ 64 := by
      rw [List.length_append] at hlt
      omega
    obtain ⟨H₁, hrested₁, hnow₁, hsettings₁⟩ := H.act hclear hrested hfirst
    obtain ⟨H₂, hrested₂, hnow₂, hsettings₂⟩ := ih H₁ (hsettings₁ ▸ hclear) hrested₁ hlt
    refine ⟨H₂, hrested₂, ?_, hsettings₂.trans hsettings₁⟩
    rw [duration_cons, ← Nat.add_assoc, ← hnow₁]
    exact hnow₂

theorem timed_attached (settings : ViewSettings) : Timed [] (attach { settings := settings }) :=
  ⟨rfl, rfl, nofun, fun _ => rfl, nofun⟩

theorem length_changes_le (s : Session) (l : List Act) : (s.changes l).length ≤ l.length := by
  induction l generalizing s with
  | nil => exact Nat.le_refl 0
  | cons a l ih =>
    have hfirst : (s.sets? a).toList.length ≤ 1 := by cases s.sets? a <;> simp
    have hrest := ih (s.act a)
    rw [changes, List.length_append, List.length_map, List.length_cons]
    omega

/-- How a view with these settings stands after a run. -/
structure Timely (settings : ViewSettings) (l : List Act) (s : Session) : Prop where
  now : s.now = duration l
  shown : s.state.save = .after settings.indicatorClear
    ((attach { settings := settings }).changes l) (duration l)
  accepts : ∀ message, (∃ t, s.requestSave message = (.ok (), t)) ↔
    max 1 settings.minMessageLength ≤ (trim message.toList).length ∧
      SaveIndicator.after settings.indicatorClear
        ((attach { settings := settings }).changes l) (duration l) ≠ .inFlight
  /-- A request that is accepted posts one frame. -/
  posts : ∀ message t, s.requestSave message = (.ok (), t) → ∃ frames,
    s.bus.outbound = some frames ∧
      t.bus.outbound = some (frames ++ [(Message.requestSave message).frame])
  /-- A request that is refused changes nothing. -/
  refuses : ∀ message r t, s.requestSave message = (.error r, t) → t = s

/-- The indicator of the latest change is shown for the time of one timer, however many others ring
meanwhile, and a request is refused only while the indicator shows that a save is in flight. -/
theorem acts_timely (settings : ViewSettings) (hclear : 0 < settings.indicatorClear) (l : List Act)
    (hlt : ((attach { settings := settings }).changes l).length < 2 ^ 64) :
    Timely settings l ((attach { settings := settings }).acts l) := by
  obtain ⟨H, hrested, hnow, hsettings⟩ := (timed_attached settings).acts hclear nofun hlt
  have hnow' : ((attach { settings := settings }).acts l).now = duration l :=
    hnow.trans (Nat.zero_add _)
  have hshown := H.save_eq hrested
  rw [hsettings, hnow'] at hshown
  constructor
  case now => exact hnow'
  case shown => exact hshown
  case accepts =>
    intro message
    simp only [requestSave_eq_ok_iff, hsettings]
    constructor
    · rintro ⟨t, hlength, hsave, -⟩
      exact ⟨hlength, fun h => hsave (hshown.trans h)⟩
    · rintro ⟨hlength, hsave⟩
      exact ⟨_, hlength, fun h => hsave (hshown.symm.trans h), rfl⟩
  case posts =>
    intro message t h
    obtain ⟨-, -, rfl⟩ := requestSave_eq_ok_iff.1 h
    obtain ⟨frames, hframes⟩ := Option.isSome_iff_exists.1 H.connected
    exact ⟨frames, hframes, Bus.outbound_postAll hframes [.requestSave message]⟩
  case refuses =>
    intro message r t h
    exact eq_of_requestSave_error h

/-- The timer of a request rings after its result has come, and the result goes on being shown. -/
theorem acts_timely_failed :
    let l : List Act := [.save "rewrite the intro", .advance 500,
      .receive (Message.saveResult false).frame, .advance 600]
    let s : Session := attach {}
    0 < s.settings.indicatorClear ∧ (s.changes l).length < 2 ^ 64 ∧
      (s.acts l).state.save = .failed := by
  intro l s
  have hlt : (s.changes l).length < 2 ^ 64 :=
    Nat.lt_of_le_of_lt (length_changes_le s l) (by decide)
  refine ⟨by decide, hlt, ?_⟩
  have hshown := (acts_timely {} (by decide) l hlt).shown
  obtain ⟨t, hsave⟩ : ∃ t, s.requestSave "rewrite the intro" = (.ok (), t) :=
    ⟨_, requestSave_eq_ok_iff.2 ⟨by decide, by decide, rfl⟩⟩
  have hasked : s.sets? (.save "rewrite the intro") = some .inFlight := by rw [sets?, hsave]; rfl
  have hact : s.act (.save "rewrite the intro") = t := by rw [act, hsave]
  obtain ⟨H, -, hnow, -⟩ := (timed_attached {}).act (a := .save "rewrite the intro")
    (by decide) nofun (hasked ▸ by decide)
  obtain ⟨-, -, hnow', -, hbus⟩ := H.elapse (Nat.le_refl _) (Nat.le_add_right _ 500)
  have hhandler : ((s.act (.save "rewrite the intro")).act (.advance 500)).bus.handler
      (Message.saveResult false).kind = some () := by
    rw [show ((s.act _).act (.advance 500)).bus = _ from hbus, hact,
      (requestSave_eq_ok_iff.1 hsave).2.2]
    rfl
  have hended : ((s.act (.save "rewrite the intro")).act (.advance 500)).sets?
      (.receive (Message.saveResult false).frame) = some .failed := by
    rw [sets?, dispatch, Bus.route_frame hhandler, Message.decode_frame]
    rfl
  have htime : ((s.act (.save "rewrite the intro")).act (.advance 500)).now = 500 :=
    hnow'.trans (congrArg (· + 500) hnow)
  have hchanges : s.changes l = [(0, .inFlight), (500, .failed)] := by
    rw [changes, hasked, changes, changes, hended, htime]
    rfl
  rw [hchanges] at hshown
  exact hshown

end Session
end PublishDesk
