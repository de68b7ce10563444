import PublishDesk.Proofs.EventStream.Delivery
import PublishDesk.Proofs.View.ClearTimers

/-!
# What a save command ends with

Chunks of the stream, its end, the frames to be posted and the time that passes move the view of a
save command (`ViewRun.move`), before its request and after. The command looks now and then, and
once it has come to a verdict it closes its view, which goes on moving until then
(`SaveCommand.move`). `SaveCommand.start_honest` says when the command ends with the code of a save
result: when it looks at a result that is still shown, and the stream has not broken off by the time
at which the view is closed.
-/

namespace PublishDesk

/-- How a command ends that has seen the result of its save. -/
def Ending.ofOutcome (ok : Bool) : Ending :=
  if ok then { code := succeeded, output := ["saved"] }
  else { code := saveFailed, errors := ["save failed; see the host log for the failing step"] }

/-! ## The view -/

namespace ViewRun

/-- What happens to a view. The answers to the frames that it posts change nothing. -/
inductive Move where
  | receive (chunk : List UInt8)
  | endStream (result : Except TransportFailure Unit)
  | post
  | advance (milliseconds : Nat)

def move (m : Move) (v : ViewRun) : ViewRun :=
  match m with
  | .receive chunk => v.receive chunk
  | .endStream result => v.endStream result
  | .post => v.nextFrame?.2
  | .advance milliseconds => v.advance milliseconds

def moves (l : List Move) (v : ViewRun) : ViewRun := l.foldl (fun v m => v.move m) v

/-- The changes of the indicator in a move, with their times. -/
def changes (m : Move) (v : ViewRun) : List (Nat × SaveIndicator) :=
  match m with
  | .receive chunk =>
    if v.cancelled || v.streamEnd.isSome then []
    else v.session.changes ((EventStream.frames (v.decoder.push chunk).2).map .receive)
  | .endStream _ | .post | .advance _ => []

/-- The changes of the indicator in many moves. -/
def history : List Move → ViewRun → List (Nat × SaveIndicator)
  | [], _ => []
  | m :: l, v => v.changes m ++ (v.move m).history l

/-- Whether the stream has broken off. -/
def broken (v : ViewRun) : Bool :=
  match v.streamEnd with
  | some (.error _) => true
  | _ => false

theorem close_result (e : Ending) (v : ViewRun) :
    (v.close (.result e)).output = e.output ∧
      (v.close (.result e)).code = if v.broken then Ending.invalid else e.code := by
  unfold close broken
  rcases v.streamEnd with _ | _ | _ <;> exact ⟨rfl, rfl⟩

end ViewRun

namespace Session

theorem acts_receive (frames : List String) (s : Session) :
    s.acts (frames.map .receive) = s.dispatchAll frames := by
  rw [acts, List.foldl_map]
  rfl

/-- A session with these settings whose indicator shows the changes so far. -/
structure OnTime (settings : ViewSettings) (past : List (Nat × SaveIndicator)) (s : Session) :
    Prop where
  timed : Timed past s
  rested : s.Rested
  settings : s.settings = settings

section OnTime

variable {settings : ViewSettings} {past : List (Nat × SaveIndicator)} {s : Session}

theorem OnTime.save_eq (H : OnTime settings past s) :
    s.state.save = .after settings.indicatorClear past s.now := by
  rw [← H.settings]
  exact H.timed.save_eq H.rested

theorem OnTime.acts (H : OnTime settings past s) (hclear : 0 < settings.indicatorClear)
    {l : List Act} (hlt : (past ++ s.changes l).length < 2 ^ 64) :
    OnTime settings (past ++ s.changes l) (s.acts l) := by
  obtain ⟨htimed, hrested, -, hsettings⟩ := H.timed.acts (H.settings ▸ hclear) H.rested hlt
  exact ⟨htimed, hrested, hsettings.trans H.settings⟩

theorem OnTime.setBus (H : OnTime settings past s) {bus : Bus Unit} (hbus : bus.outbound.isSome) :
    OnTime settings past { s with bus := bus } :=
  ⟨⟨hbus, H.timed.generation, H.timed.timers, H.timed.idle, H.timed.latest⟩, H.rested, H.settings⟩

end OnTime

/-- Frames set the indicator to nothing but the outcomes of saves. -/
theorem outcome_of_mem_changes {c : Nat × SaveIndicator} {frames : List String} {s : Session}
    (h : c ∈ s.changes (frames.map .receive)) : ∃ ok, c.2 = .ofOutcome ok := by
  induction frames generalizing s with
  | nil => cases h
  | cons f frames ih =>
    rw [List.map_cons, changes] at h
    rcases List.mem_append.1 h with h | h
    · obtain ⟨i, hi, rfl⟩ := List.mem_map.1 h
      have hset := Option.mem_toList.1 hi
      rw [sets?] at hset
      split at hset
      · obtain ⟨m, -, hm⟩ := Option.bind_eq_some_iff.1 hset
        cases m with
        | saveResult ok => exact ⟨ok, (Option.some.inj hm).symm⟩
        | ping | pong | requestSave => cases hm
      · cases hset
    · exact ih h

end Session

namespace ViewRun

variable {settings : ViewSettings} {past : List (Nat × SaveIndicator)} {v : ViewRun}

theorem onTime_move (H : v.session.OnTime settings past) (hclear : 0 < settings.indicatorClear)
    {m : Move} (hlt : (past ++ v.changes m).length < 2 ^ 64) :
    (v.move m).session.OnTime settings (past ++ v.changes m) := by
  cases m with
  | receive chunk =>
    rw [changes] at hlt ⊢
    rw [move, receive]
    split
    · next hclosed =>
      rw [List.append_nil]
      exact H
    · next hopen =>
      rw [if_neg hopen] at hlt
      change (v.session.dispatchAll _).OnTime settings _
      rw [← Session.acts_receive]
      exact H.acts hclear hlt
  | endStream result =>
    rw [move, endStream, changes, List.append_nil]
    split <;> exact H
  | post =>
    rw [move, nextFrame?, changes, List.append_nil]
    split
    · exact H
    · refine H.setBus ?_
      rw [Bus.receive]
      split
      · rfl
      · exact H.timed.connected
  | advance milliseconds =>
    exact H.acts hclear (l := [.advance milliseconds]) hlt

theorem onTime_moves (H : v.session.OnTime settings past) (hclear : 0 < settings.indicatorClear)
    {l : List Move} (hlt : (past ++ v.history l).length < 2 ^ 64) :
    (v.moves l).session.OnTime settings (past ++ v.history l) := by
  induction l generalizing v past with
  | nil => exact (List.append_nil past).symm ▸ H
  | cons m l ih =>
    rw [history, ← List.append_assoc] at hlt ⊢
    have hfirst : (past ++ v.changes m).length < 2 ^ 64 := by
      rw [List.length_append] at hlt
      omega
    exact ih (onTime_move H hclear hfirst) hlt

theorem frames_push {d : EventStream.Decoder} (h : d.IsIdle) (hbuffer : d.buffer = [])
    (m : Message) :
    EventStream.frames (d.push (Text.Utf8.encode (EventStream.Item.message m).text)).2 =
      [m.frame] := by
  have hchunks : [Text.Utf8.encode (EventStream.Item.message m).text].flatten =
      Text.Utf8.encode ([EventStream.Item.message m].flatMap EventStream.Item.text) := by
    rw [List.flatten_singleton, List.flatMap_singleton]
  have hevents := (EventStream.Decoder.pushAll_items h hbuffer hchunks).2
  rw [EventStream.Decoder.pushAll, EventStream.Decoder.pushAll, List.flatten_singleton] at hevents
  rw [hevents]
  exact EventStream.frames_events [.message m]

/-- A view that listens takes the result of a save that it receives. -/
theorem receive_result (hopen : v.cancelled = false) (hstream : v.streamEnd = none)
    (hidle : v.decoder.IsIdle) (hbuffer : v.decoder.buffer = [])
    (hhandler : v.session.bus.handler .saveResult = some ()) (ok : Bool) :
    let result := Text.Utf8.encode (EventStream.Item.message (.saveResult ok)).text
    v.changes (.receive result) = [(v.session.now, .ofOutcome ok)] ∧
      ∃ d, v.receive result =
        { v with decoder := d, session := v.session.handle (.saveResult ok) } := by
  intro result
  have hframes : EventStream.frames (v.decoder.push result).2 = [(Message.saveResult ok).frame] :=
    frames_push hidle hbuffer _
  have hroute := Bus.route_frame (m := .saveResult ok) hhandler
  constructor
  · have hset : v.session.sets? (.receive (Message.saveResult ok).frame) =
        some (.ofOutcome ok) := by
      rw [Session.sets?, Session.dispatch, hroute, Message.decode_frame]
      rfl
    rw [changes, hopen, hstream, hframes]
    change v.session.changes [.receive (Message.saveResult ok).frame] = _
    rw [Session.changes, hset]
    rfl
  · refine ⟨(v.decoder.push result).1, ?_⟩
    have hdispatch : v.session.dispatchAll [(Message.saveResult ok).frame] =
        v.session.handle (.saveResult ok) := by
      change (v.session.dispatch _).2 = _
      rw [Session.dispatch, hroute]
      rfl
    simp only [receive, hopen, hstream, hframes, hdispatch]
    rfl

theorem outcome_of_mem_changes {m : Move} {r : Nat × SaveIndicator} (h : r ∈ v.changes m) :
    ∃ ok, r.2 = .ofOutcome ok := by
  cases m with
  | receive chunk =>
    rw [changes] at h
    split at h
    · cases h
    · exact Session.outcome_of_mem_changes h
  | endStream | post | advance => cases h

end ViewRun

namespace SaveRun

variable {run : SaveRun} {ok : Bool}

theorem verdict?_of_save (h : run.view.session.state.save = .ofOutcome ok) :
    run.verdict? = some (.result (.ofOutcome ok)) := by
  rw [verdict?, h]
  cases ok <;> rfl

/-- Nothing but a result that is shown leads to the code of a result, and only when the stream does
not break off. -/
theorem of_code_eq {verdict : Verdict} {view : ViewRun} (h : run.verdict? = some verdict)
    (hcode : (view.close verdict).code = (Ending.ofOutcome ok).code) :
    run.view.session.state.save = .ofOutcome ok ∧ verdict = .result (.ofOutcome ok) ∧
      view.broken = false := by
  -- The code of a verdict that has nothing to do with a result.
  have hother {e : Ending} (he : e.code = Ending.timedOut) :
      (view.close (.result e)).code ≠ (Ending.ofOutcome ok).code := by
    rw [(view.close_result e).2, he]
    cases view.broken <;> cases ok <;> decide
  have hresult {b : Bool}
      (hcode : (view.close (.result (.ofOutcome b))).code = (Ending.ofOutcome ok).code) :
      b = ok ∧ view.broken = false := by
    rw [(view.close_result _).2] at hcode
    revert hcode
    cases view.broken <;> cases b <;> cases ok <;> decide
  rw [verdict?] at h
  split at h
  · next hsave =>
    obtain rfl := Option.some.inj h
    obtain ⟨rfl, hbroken⟩ := hresult (b := true) hcode
    exact ⟨hsave, rfl, hbroken⟩
  · next hsave =>
    obtain rfl := Option.some.inj h
    obtain ⟨rfl, hbroken⟩ := hresult (b := false) hcode
    exact ⟨hsave, rfl, hbroken⟩
  all_goals
    split at h
    · obtain rfl := Option.some.inj h
      exact absurd hcode (hother rfl)
    · split at h
      · obtain rfl := Option.some.inj h
        rw [ViewRun.code_close_failure] at hcode
        cases ok <;> exact absurd hcode (by decide)
      · cases h

end SaveRun

/-! ## The command -/

inductive SaveCommand where
  | waiting (run : SaveRun)
  /-- It has come to a verdict, and the view is still to be closed. -/
  | closing (view : ViewRun) (verdict : Verdict)
  | ended (ending : Ending)

namespace SaveCommand

inductive Move where
  | view (m : ViewRun.Move)
  | look
  | close

def start (message : String) (timeoutSeconds : Nat) (view : ViewRun) : SaveCommand :=
  match SaveRun.start message timeoutSeconds view with
  | .ok run => .waiting run
  | .error ending => .ended ending

def move (m : Move) : SaveCommand → SaveCommand
  | .waiting run =>
    match m with
    | .view m => .waiting { run with view := run.view.move m }
    | .look =>
      match run.verdict? with
      | some verdict => .closing run.view verdict
      | none => .waiting run
    | .close => .waiting run
  | .closing view verdict =>
    match m with
    | .view m => .closing (view.move m) verdict
    | .look => .closing view verdict
    | .close => .ended (view.close verdict)
  | .ended ending => .ended ending

def moves (l : List Move) (c : SaveCommand) : SaveCommand := l.foldl (fun c m => c.move m) c

/-- The changes of the indicator in a move of a command that waits. -/
def changes (m : Move) : SaveCommand → List (Nat × SaveIndicator)
  | .waiting run =>
    match m with
    | .view m => run.view.changes m
    | .look | .close => []
  | .closing _ _ | .ended _ => []

/-- The changes of the indicator while the command waits. -/
def history : List Move → SaveCommand → List (Nat × SaveIndicator)
  | [], _ => []
  | m :: l, c => c.changes m ++ (c.move m).history l

/-- How a save command ends whose request has been made. -/
structure Honest (shown : Nat) (c : SaveCommand) (l : List Move) : Prop where
  /-- All that the indicator shows are results of saves. -/
  results : ∀ r ∈ c.history l, ∃ ok, r.2 = .ofOutcome ok
  /-- A command that looks at a result that is shown ends with its code, unless the stream has
  broken off before the view is closed; the result is printed in any case. -/
  answered : ∀ l₁ l₂ run ok, l = l₁ ++ .look :: l₂ ++ [.close] → .close ∉ l₂ →
    c.moves l₁ = .waiting run →
    SaveIndicator.after shown (c.history l₁) run.view.session.now = .ofOutcome ok →
    ∃ view ending, c.moves (l₁ ++ .look :: l₂) = .closing view (.result (.ofOutcome ok)) ∧
      c.moves l = .ended ending ∧ ending.output = (Ending.ofOutcome ok).output ∧
      ending.code = if view.broken then Ending.invalid else (Ending.ofOutcome ok).code
  /-- It ends with the code of a result in no other way. -/
  only : ∀ ending ok, c.moves l = .ended ending → ending.code = (Ending.ofOutcome ok).code →
    ∃ l₁ l₂ l₃ run view, l = l₁ ++ .look :: l₂ ++ .close :: l₃ ∧ c.moves l₁ = .waiting run ∧
      SaveIndicator.after shown (c.history l₁) run.view.session.now = .ofOutcome ok ∧
      c.moves (l₁ ++ .look :: l₂) = .closing view (.result (.ofOutcome ok)) ∧
      view.broken = false

variable {c : SaveCommand} {run run' : SaveRun} {view : ViewRun} {verdict : Verdict}
  {ending : Ending} {l l' : List Move}

/-! ### Phases -/

theorem moves_append (l l' : List Move) (c : SaveCommand) :
    c.moves (l ++ l') = (c.moves l).moves l' := List.foldl_append

theorem history_append (l l' : List Move) (c : SaveCommand) :
    c.history (l ++ l') = c.history l ++ (c.moves l).history l' := by
  induction l generalizing c with
  | nil => rfl
  | cons m l ih =>
    rw [List.cons_append, history, ih, history, List.append_assoc]
    rfl

theorem moves_ended (l : List Move) (ending : Ending) : (ended ending).moves l = .ended ending := by
  induction l with
  | nil => rfl
  | cons m l ih => exact ih

/-- A view goes on moving until it is closed. -/
theorem exists_moves_closing (h : .close ∉ l) (view : ViewRun) (verdict : Verdict) :
    ∃ view', (closing view verdict).moves l = .closing view' verdict := by
  induction l generalizing view with
  | nil => exact ⟨view, rfl⟩
  | cons m l ih =>
    rw [List.mem_cons, not_or] at h
    cases m with
    | view m => exact ih h.2 (view.move m)
    | look => exact ih h.2 view
    | close => exact absurd rfl h.1

theorem moves_closing_ne_waiting : (closing view verdict).moves l ≠ .waiting run := by
  induction l generalizing view with
  | nil => exact nofun
  | cons m l ih =>
    cases m with
    | view m => exact ih
    | look => exact ih
    | close =>
      change (ended _).moves l ≠ _
      rw [moves_ended]
      exact nofun

theorem of_moves_closing_eq_ended (h : (closing view verdict).moves l = .ended ending) :
    ∃ l₂ l₃ view', l = l₂ ++ .close :: l₃ ∧
      (closing view verdict).moves l₂ = .closing view' verdict ∧ ending = view'.close verdict := by
  induction l generalizing view with
  | nil => cases h
  | cons m l ih =>
    cases m with
    | view m =>
      obtain ⟨l₂, l₃, view', rfl, hclosing, hending⟩ := ih h
      exact ⟨.view m :: l₂, l₃, view', rfl, hclosing, hending⟩
    | look =>
      obtain ⟨l₂, l₃, view', rfl, hclosing, hending⟩ := ih h
      exact ⟨.look :: l₂, l₃, view', rfl, hclosing, hending⟩
    | close =>
      change (ended _).moves l = _ at h
      rw [moves_ended] at h
      exact ⟨[], l, view, rfl, rfl, (ended.inj h).symm⟩

theorem moves_cons (m : Move) (l : List Move) (c : SaveCommand) :
    c.moves (m :: l) = (c.move m).moves l := rfl

theorem move_look (h : run.verdict? = some verdict) :
    (waiting run).move .look = .closing run.view verdict := by
  simp only [move, h]

theorem of_move_eq_closing {m : Move} (h : (waiting run).move m = .closing view verdict) :
    m = .look ∧ run.verdict? = some verdict := by
  cases m with
  | view m => cases h
  | close => cases h
  | look =>
    cases hverdict : run.verdict? with
    | none =>
      simp only [move, hverdict] at h
      cases h
    | some v =>
      rw [move_look hverdict] at h
      obtain ⟨-, rfl⟩ := closing.inj h
      exact ⟨rfl, rfl⟩

theorem move_waiting_ne_ended {m : Move} : (waiting run).move m ≠ .ended ending := by
  cases m with
  | view m => exact nofun
  | close => exact nofun
  | look =>
    rw [move]
    split <;> exact nofun

/-- A command that has ended has looked, found a verdict and closed its view. -/
theorem of_moves_waiting_eq_ended (h : (waiting run).moves l = .ended ending) :
    ∃ l₁ l₂ l₃ run' verdict view, l = l₁ ++ .look :: l₂ ++ .close :: l₃ ∧
      (waiting run).moves l₁ = .waiting run' ∧ run'.verdict? = some verdict ∧
      (waiting run).moves (l₁ ++ .look :: l₂) = .closing view verdict ∧
      ending = view.close verdict := by
  induction l generalizing run with
  | nil => cases h
  | cons m l ih =>
    rw [moves_cons] at h
    cases hm : (waiting run).move m with
    | waiting run₁ =>
      rw [hm] at h
      obtain ⟨l₁, l₂, l₃, run', verdict, view, rfl, hwaiting, hverdict, hclosing, hending⟩ := ih h
      refine ⟨m :: l₁, l₂, l₃, run', verdict, view, rfl, ?_, hverdict, ?_, hending⟩
      · rw [moves_cons, hm, hwaiting]
      · rw [List.cons_append, moves_cons, hm, hclosing]
    | closing view verdict =>
      obtain ⟨rfl, hverdict⟩ := of_move_eq_closing hm
      rw [hm] at h
      obtain ⟨l₂, l₃, view', rfl, hclosing, hending⟩ := of_moves_closing_eq_ended h
      refine ⟨[], l₂, l₃, run, verdict, view', rfl, rfl, hverdict, ?_, hending⟩
      rw [List.nil_append, moves_cons, hm, hclosing]
    | ended e => exact absurd hm move_waiting_ne_ended

/-! ### The indicator -/

variable {settings : ViewSettings} {past : List (Nat × SaveIndicator)}

theorem onTime_move (H : run.view.session.OnTime settings past)
    (hclear : 0 < settings.indicatorClear) {m : Move} (hm : (waiting run).move m = .waiting run')
    (hlt : (past ++ (waiting run).changes m).length < 2 ^ 64) :
    run'.view.session.OnTime settings (past ++ (waiting run).changes m) := by
  cases m with
  | view m =>
    obtain rfl := waiting.inj hm
    exact ViewRun.onTime_move H hclear hlt
  | close =>
    obtain rfl := waiting.inj hm
    exact (List.append_nil past).symm ▸ H
  | look =>
    rw [move] at hm
    split at hm
    · cases hm
    · obtain rfl := waiting.inj hm
      exact (List.append_nil past).symm ▸ H

theorem onTime_waiting (H : run.view.session.OnTime settings past)
    (hclear : 0 < settings.indicatorClear) (hwaiting : (waiting run).moves l = .waiting run')
    (hlt : (past ++ (waiting run).history l).length < 2 ^ 64) :
    run'.view.session.OnTime settings (past ++ (waiting run).history l) := by
  induction l generalizing run past with
  | nil =>
    obtain rfl := waiting.inj hwaiting
    exact (List.append_nil past).symm ▸ H
  | cons m l ih =>
    rw [moves_cons] at hwaiting
    rw [history, ← List.append_assoc] at hlt ⊢
    have hfirst : (past ++ (waiting run).changes m).length < 2 ^ 64 := by
      rw [List.length_append] at hlt
      omega
    cases hm : (waiting run).move m with
    | waiting run₁ =>
      rw [hm] at hwaiting hlt
      exact ih (onTime_move H hclear hm hfirst) hwaiting hlt
    | closing view verdict =>
      rw [hm] at hwaiting
      exact absurd hwaiting moves_closing_ne_waiting
    | ended e => exact absurd hm move_waiting_ne_ended

/-- Changes of the indicator come of the frames that are received. -/
theorem outcome_of_mem_history {r : Nat × SaveIndicator} (h : r ∈ c.history l) :
    ∃ ok, r.2 = .ofOutcome ok := by
  induction l generalizing c with
  | nil => cases h
  | cons m l ih =>
    rw [history] at h
    rcases List.mem_append.1 h with h | h
    · cases c with
      | waiting run =>
        cases m with
        | view m => exact ViewRun.outcome_of_mem_changes h
        | look | close => cases h
      | closing view verdict | ended ending => cases h
    · exact ih h

/-- A request hides what has been shown before. -/
theorem after_request (shown time now : Nat) (past later : List (Nat × SaveIndicator)) (ok : Bool) :
    SaveIndicator.after shown (past ++ [(time, .inFlight)] ++ later) now = .ofOutcome ok ↔
      SaveIndicator.after shown later now = .ofOutcome ok := by
  unfold SaveIndicator.after
  cases hlast : later.getLast? with
  | some r => rw [List.getLast?_append, hlast, Option.some_or]
  | none =>
    obtain rfl := List.getLast?_eq_none_iff.1 hlast
    rw [List.append_nil, List.getLast?_concat]
    simp only
    cases ok <;> split <;> simp [SaveIndicator.ofOutcome]

theorem onTime_start {message : String} {seconds : Nat}
    (H : view.session.OnTime settings past) (hclear : 0 < settings.indicatorClear)
    (hlt : past.length + 1 < 2 ^ 64) (h : start message seconds view = .waiting run) :
    run.view.session.OnTime settings (past ++ [(view.session.now, .inFlight)]) := by
  rw [start, SaveRun.start] at h
  obtain ⟨r, hrequest⟩ | ⟨-, -, hrequest⟩ := Session.requestSave_cases message view.session
  · rw [hrequest] at h
    cases h
  · rw [hrequest] at h
    obtain rfl := waiting.inj h
    have hchanges : view.session.changes [.save message] = [(view.session.now, .inFlight)] := by
      rw [Session.changes, Session.sets?, hrequest]
      rfl
    have hlater := H.acts hclear (l := [.save message]) (by
      rw [hchanges, List.length_append]
      exact hlt)
    rw [hchanges] at hlater
    change Session.OnTime settings _ (view.session.requestSave message).2 at hlater
    rw [hrequest] at hlater
    exact hlater

theorem code_of_start {message : String} {seconds : Nat}
    (h : start message seconds view = .ended ending) : ending.code = Ending.invalid := by
  rw [start] at h
  split at h
  · cases h
  · next e he =>
    obtain rfl := ended.inj h
    exact SaveRun.code_of_start he

theorem start_ne_closing {message : String} {seconds : Nat} {view' : ViewRun} :
    start message seconds view ≠ .closing view' verdict := by
  rw [start]
  split <;> exact nofun

/-- A command that has been refused its request ends with no code of a result. -/
theorem honest_ended (shown : Nat) (hcode : ending.code = Ending.invalid) (l : List Move) :
    Honest shown (ended ending) l := by
  constructor
  case results => exact fun r hr => outcome_of_mem_history hr
  case answered =>
    intro l₁ l₂ run ok _ _ hwaiting
    rw [moves_ended] at hwaiting
    cases hwaiting
  case only =>
    intro e ok hended heq
    rw [moves_ended] at hended
    obtain rfl := ended.inj hended
    rw [hcode] at heq
    cases ok <;> exact absurd heq (by decide)

variable {time : Nat} (H : run.view.session.OnTime settings (past ++ [(time, .inFlight)]))
  (hclear : 0 < settings.indicatorClear)

include H hclear

/-- While a command waits, its indicator shows the results since the request. -/
theorem save_eq_iff (hwaiting : (waiting run).moves l = .waiting run')
    (hlt : past.length + 1 + ((waiting run).history l).length < 2 ^ 64) (ok : Bool) :
    run'.view.session.state.save = .ofOutcome ok ↔
      SaveIndicator.after settings.indicatorClear ((waiting run).history l)
        run'.view.session.now = .ofOutcome ok := by
  have hbound : (past ++ [(time, SaveIndicator.inFlight)] ++
      (waiting run).history l).length < 2 ^ 64 := by
    simp only [List.length_append, List.length_singleton]
    exact hlt
  rw [(onTime_waiting H hclear hwaiting hbound).save_eq]
  exact after_request ..

theorem honest_waiting (l : List Move)
    (hlt : past.length + 1 + ((waiting run).history l).length < 2 ^ 64) :
    Honest settings.indicatorClear (waiting run) l := by
  have hbound {l₁ l₂ : List Move} (hl : l = l₁ ++ l₂) :
      past.length + 1 + ((waiting run).history l₁).length < 2 ^ 64 := by
    rw [hl, history_append, List.length_append] at hlt
    omega
  constructor
  case results => exact fun r hr => outcome_of_mem_history hr
  case answered =>
    intro l₁ l₂ run' ok hl hclose hwaiting hafter
    have hsave := (save_eq_iff H hclear hwaiting (hbound (hl.trans (List.append_assoc ..))) ok).2
      hafter
    obtain ⟨view', hclosing⟩ := exists_moves_closing hclose run'.view (.result (.ofOutcome ok))
    have hmoves : (waiting run).moves (l₁ ++ .look :: l₂) =
        .closing view' (.result (.ofOutcome ok)) := by
      rw [moves_append, hwaiting, moves_cons, move_look (SaveRun.verdict?_of_save hsave), hclosing]
    obtain ⟨houtput, hcode⟩ := view'.close_result (.ofOutcome ok)
    refine ⟨view', _, hmoves, ?_, houtput, hcode⟩
    rw [hl, moves_append, hmoves]
    rfl
  case only =>
    intro ending ok hended hcode
    obtain ⟨l₁, l₂, l₃, run', verdict, view', hl, hwaiting, hverdict, hclosing, rfl⟩ :=
      of_moves_waiting_eq_ended hended
    obtain ⟨hsave, rfl, hbroken⟩ := SaveRun.of_code_eq hverdict hcode
    have hafter := (save_eq_iff H hclear hwaiting (hbound (hl.trans (List.append_assoc ..))) ok).1
      hsave
    exact ⟨l₁, l₂, l₃, run', view', hl, hwaiting, hafter, hclosing, hbroken⟩

omit H hclear

/-- Whatever a host does, a save command ends with the code of a result if and only if it looks at
one that is still shown and its stream is whole when it closes its view. -/
theorem start_honest (settings : ViewSettings) (hclear : 0 < settings.indicatorClear)
    (before : List ViewRun.Move) (message : String) (seconds : Nat) (l : List Move)
    (hlt : ((ViewRun.connected settings).history before).length + 1 +
      ((start message seconds ((ViewRun.connected settings).moves before)).history l).length <
        2 ^ 64) :
    Honest settings.indicatorClear
      (start message seconds ((ViewRun.connected settings).moves before)) l := by
  have hconnected : (ViewRun.connected settings).session.OnTime settings [] :=
    ⟨Session.timed_attached settings, nofun, rfl⟩
  have hbefore := ViewRun.onTime_moves hconnected hclear (l := before) (by
    rw [List.nil_append]
    omega)
  rw [List.nil_append] at hbefore
  cases hstart : start message seconds ((ViewRun.connected settings).moves before) with
  | closing view' verdict => exact absurd hstart start_ne_closing
  | ended refusal => exact honest_ended _ (code_of_start hstart) l
  | waiting run =>
    rw [hstart] at hlt
    exact honest_waiting (onTime_start hbefore hclear (by omega) hstart) hclear l hlt

/-- A waiting view takes a result, and then its stream ends. -/
theorem moves_result (hopen : run.view.cancelled = false) (hstream : run.view.streamEnd = none)
    (hidle : run.view.decoder.IsIdle) (hbuffer : run.view.decoder.buffer = [])
    (hhandler : run.view.session.bus.handler .saveResult = some ()) (ok : Bool)
    (streamEnd : Except TransportFailure Unit) :
    let result := Text.Utf8.encode (EventStream.Item.message (.saveResult ok)).text
    let l : List Move := [.view (.receive result), .view (.endStream streamEnd)]
    (waiting run).history l = [(run.view.session.now, .ofOutcome ok)] ∧
      ∃ d, (waiting run).moves l = .waiting { run with view :=
        { session := run.view.session.handle (.saveResult ok), decoder := d
          streamEnd := some streamEnd, cancelled := true } } := by
  intro result l
  obtain ⟨hchanges, d, hreceive⟩ :=
    ViewRun.receive_result hopen hstream hidle hbuffer hhandler ok
  constructor
  · change ViewRun.changes (.receive result) run.view ++ ([] ++ []) = _
    rw [hchanges]
    rfl
  · refine ⟨d, ?_⟩
    change waiting { run with view := (ViewRun.receive result run.view).endStream streamEnd } = _
    rw [hreceive]
    simp only [ViewRun.endStream, hopen, hstream]
    rfl

/-- A save has succeeded and the command says so, but its stream breaks off before the view is
closed. -/
theorem start_honest_broken :
    let result := Text.Utf8.encode (EventStream.Item.message (.saveResult true)).text
    let c := start "rewrite the intro" 120 (ViewRun.connected {})
    let l : List Move := [.view (.receive result), .view (.endStream (.error (.readFailed []))),
      .look, .close]
    0 < ({} : ViewSettings).indicatorClear ∧
      ((ViewRun.connected {}).history []).length + 1 + (c.history l).length < 2 ^ 64 ∧
      ∃ ending, c.moves l = .ended ending ∧ ending.output = ["saved"] ∧
        ending.code = Ending.invalid := by
  intro result c l
  obtain ⟨t, hrequest⟩ :
      ∃ t, (ViewRun.connected {}).session.requestSave "rewrite the intro" = (.ok (), t) :=
    ⟨_, Session.requestSave_eq_ok_iff.2 ⟨by decide, by decide, rfl⟩⟩
  have ht := (Session.requestSave_eq_ok_iff.1 hrequest).2.2
  have hnow : t.now = 0 := by
    rw [ht]
    rfl
  let run : SaveRun :=
    ⟨{ ViewRun.connected {} with session := t }, t.now + 1000 * 120, 120⟩
  have hstart : c = .waiting run := by
    change start _ _ _ = _
    rw [start, SaveRun.start, hrequest]
  have hhandler : run.view.session.bus.handler .saveResult = some () := by
    change t.bus.handler .saveResult = some ()
    rw [ht]
    rfl
  obtain ⟨hhistory, d, hwaiting⟩ := moves_result rfl rfl ⟨rfl, rfl⟩ rfl hhandler true
    (.error (.readFailed []))
  rw [← hstart, show run.view.session.now = 0 from hnow] at hhistory
  rw [← hstart] at hwaiting
  have hlt : ((ViewRun.connected {}).history []).length + 1 + (c.history l).length < 2 ^ 64 := by
    have hl : c.history l = [(0, .succeeded)] := by
      change c.history ([_, _] ++ [.look, .close]) = _
      rw [history_append, hhistory, hwaiting]
      rfl
    rw [hl]
    decide
  have hhonest : Honest _ c l := start_honest {} (by decide) [] "rewrite the intro" 120 l hlt
  obtain ⟨view, ending, hclosing, hended, houtput, hcode⟩ :=
    hhonest.answered _ [] _ true rfl List.not_mem_nil hwaiting (by
      rw [hhistory]
      change SaveIndicator.after _ _ t.now = _
      rw [hnow]
      rfl)
  refine ⟨by decide, hlt, ending, hended, houtput, ?_⟩
  rw [moves_append, hwaiting] at hclosing
  obtain ⟨rfl, -⟩ := closing.inj hclosing
  exact hcode

end SaveCommand
end PublishDesk
