import Mathlib.Data.List.Induction
import PublishDesk.Proofs.Bus.Dispatch

/-!
# Handlers and the queue

A handler may post on its own bus while it runs, and what it posts may depend on its message and on
what the handlers have kept from earlier runs. `Bus.move` is one step on a bus with such handlers;
the steps of `Bus.step` are those whose handlers always post the same (`Bus.run_eq`). However many
steps have been taken, a frame is handed to the handler that has been registered last, and what has
been received from the queue and what is still in it are together all that has been posted, until
the transport lets go of the queue (`Bus.faithful`). What is in the queue then is lost
(`Bus.not_received_all`).
-/

namespace PublishDesk.Bus

variable {H σ : Type}

/-- What handlers do: what a handler posts, given its message and what the handlers keep, and what
they keep then. -/
abbrev Conduct (H σ : Type) := H → Message → σ → List Message × σ

inductive Move (H : Type) where
  | register (kind : Kind) (handler : H)
  | dispatch (frame : String)
  | post (message : Message)
  | receive
  | drain
  | detach

/-- A bus, and what its handlers keep. -/
structure Setting (H σ : Type) where
  bus : Bus H
  kept : σ

/-- What a move comes to. -/
structure Upshot (H σ : Type) where
  after : Setting H σ
  answer : Answer := .done
  /-- The handlers that have run, with their messages. -/
  ran : List (H × Message) := []
  posted : List Message := []

/-- The frames that an answer holds. -/
def Answer.frames : Answer → List String
  | .received frame => frame.toList
  | .drained frames => frames
  | _ => []

/-- Hand a frame to its handler. -/
def hand (act : Conduct H σ) (s : Setting H σ) (frame : String) : Upshot H σ :=
  match s.bus.route frame with
  | .error e => { after := s, answer := .dispatched (.error e) }
  | .ok (k, h, m) =>
    if m.kind = k then
      let r := act h m s.kept
      { after := ⟨s.bus.postAll r.1, r.2⟩, answer := .dispatched (.ok k), ran := [(h, m)],
        posted := r.1 }
    else { after := s, answer := .dispatched (.ok k) }

def move (act : Conduct H σ) (s : Setting H σ) : Move H → Upshot H σ
  | .register k h => { after := { s with bus := s.bus.register k h } }
  | .dispatch frame => hand act s frame
  | .post m => { after := { s with bus := s.bus.post m }, posted := [m] }
  | .receive => { after := { s with bus := s.bus.receive.2 }, answer := .received s.bus.receive.1 }
  | .drain => { after := { s with bus := s.bus.drain.2 }, answer := .drained s.bus.drain.1 }
  | .detach => { after := { s with bus := s.bus.detach } }

/-- Take moves one after the other. -/
def upshots (act : Conduct H σ) (s : Setting H σ) : List (Move H) → List (Upshot H σ)
  | [] => []
  | m :: moves => move act s m :: upshots act (move act s m).after moves

def after (act : Conduct H σ) (s : Setting H σ) (moves : List (Move H)) : Setting H σ :=
  moves.foldl (fun s m => (move act s m).after) s

section

variable (act : Conduct H σ) (kept : σ) (moves : List (Move H))

/-- How things stand after moves on a new bus. -/
def reached : Setting H σ := after act ⟨.empty, kept⟩ moves

/-- What one more move comes to. -/
def next (m : Move H) : Upshot H σ := move act (reached act kept moves) m

/-- All that is posted, by moves and by handlers, in the order of the posts. -/
def posted : List Message := (upshots act ⟨.empty, kept⟩ moves).flatMap (·.posted)

/-- All that is received, in order. -/
def received : List String := (upshots act ⟨.empty, kept⟩ moves).flatMap (·.answer.frames)

end

/-- The handler that has been registered last for a kind. -/
def latest? (k : Kind) (moves : List (Move H)) : Option H :=
  (moves.filterMap fun
    | .register k' h => if k = k' then some h else none
    | _ => none).getLast?

/-- What a bus keeps to, whatever moves have been made on it and whatever its handlers do. -/
structure Faithful (act : Conduct H σ) (kept : σ) (moves : List (Move H)) : Prop where
  /-- A dispatch that succeeds runs the handler that has been registered last for the kind of the
  frame, with the message of the frame, once, and no other handler. -/
  runs_latest : ∀ frame k, (next act kept moves (.dispatch frame)).answer = .dispatched (.ok k) →
    ∃ h m, latest? k moves = some h ∧ Message.decode frame = .ok m ∧ m.kind = k ∧
      (next act kept moves (.dispatch frame)).ran = [(h, m)]
  /-- Nothing else runs a handler. -/
  runs_none : ∀ m, (∀ k, (next act kept moves m).answer ≠ .dispatched (.ok k)) →
    (next act kept moves m).ran = []
  /-- A message that has a handler is dispatched, whether or not its handler can post. -/
  succeeds : ∀ (m : Message) (h : H), latest? m.kind moves = some h →
    (next act kept moves (.dispatch m.frame)).answer = .dispatched (.ok m.kind)
  /-- What has been received and what is in the queue are all that has been posted. -/
  queued : .detach ∉ moves → ∃ q, (reached act kept moves).bus.outbound = some q ∧
    received act kept moves ++ q = (posted act kept moves).map Message.frame
  /-- While the transport holds the queue, it finds nothing only if it has received all. -/
  received_all : .detach ∉ moves → (next act kept moves .receive).answer = .received none →
    received act kept moves = (posted act kept moves).map Message.frame
  /-- Nothing but what is in the queue is lost when the transport lets go of it. -/
  dropped : ∀ pre post, moves = pre ++ .detach :: post → .detach ∉ pre →
    ∃ q, (reached act kept pre).bus.outbound = some q ∧
      received act kept moves ++ q = (posted act kept pre).map Message.frame
  /-- What is posted then leaves no trace. -/
  silent : .detach ∈ moves →
    (∀ m, (next act kept moves (.post m)).after = reached act kept moves) ∧
    ∀ frame, (next act kept moves (.dispatch frame)).after.bus = (reached act kept moves).bus

/-! ## Handlers that always post the same -/

def Step.move : Step → Move Responder
  | .register k h => .register k h
  | .dispatch frame => .dispatch frame
  | .post m => .post m
  | .receive => .receive
  | .drain => .drain
  | .detach => .detach

/-- What responders do. -/
def respond : Conduct Responder Unit := fun h _ _ => (h.replies, ())

def Upshot.outcome (u : Upshot Responder Unit) : Outcome :=
  ⟨u.after.bus, u.answer, u.ran.map fun p => (p.1.label, p.2)⟩

theorem step_eq (b : Bus Responder) (s : Step) :
    b.step s = (move respond ⟨b, ()⟩ s.move).outcome := by
  cases s with
  | dispatch frame =>
    rw [step, dispatch, Step.move, Bus.move, hand]
    rcases b.route frame with e | ⟨k, h, m⟩
    · rfl
    · dsimp only
      split <;> rfl
  | _ => rfl

/-- A program on a bus is a list of moves. -/
theorem run_eq (b : Bus Responder) (steps : List Step) :
    b.run steps = (upshots respond ⟨b, ()⟩ (steps.map Step.move)).map Upshot.outcome := by
  induction steps generalizing b with
  | nil => rfl
  | cons s steps ih =>
    rw [run, List.map_cons, upshots, List.map_cons, ih, step_eq]
    rfl

/-! ## Moves one after the other -/

variable {act : Conduct H σ} {s : Setting H σ} {moves moves' : List (Move H)}

theorem upshots_append : upshots act s (moves ++ moves') =
    upshots act s moves ++ upshots act (after act s moves) moves' := by
  induction moves generalizing s with
  | nil => rfl
  | cons m moves ih => exact congrArg _ ih

theorem reached_concat (kept : σ) (moves : List (Move H)) (m : Move H) :
    reached act kept (moves ++ [m]) = (next act kept moves m).after :=
  List.foldl_append ..

theorem posted_concat (kept : σ) (moves : List (Move H)) (m : Move H) :
    posted act kept (moves ++ [m]) = posted act kept moves ++ (next act kept moves m).posted := by
  rw [posted, upshots_append, List.flatMap_append, upshots, upshots, List.flatMap_singleton]
  rfl

theorem received_concat (kept : σ) (moves : List (Move H)) (m : Move H) :
    received act kept (moves ++ [m]) =
      received act kept moves ++ (next act kept moves m).answer.frames := by
  rw [received, upshots_append, List.flatMap_append, upshots, upshots, List.flatMap_singleton]
  rfl

/-! ## Handlers -/

theorem hand_of_route {frame : String} {m : Message} {h : H}
    (hroute : s.bus.route frame = .ok (m.kind, h, m)) :
    hand act s frame =
      { after := ⟨s.bus.postAll (act h m s.kept).1, (act h m s.kept).2⟩
        answer := .dispatched (.ok m.kind), ran := [(h, m)], posted := (act h m s.kept).1 } := by
  rw [hand, hroute]
  exact if_pos rfl

/-- A frame is refused, or the handler of its message runs. -/
theorem hand_cases (act : Conduct H σ) (s : Setting H σ) (frame : String) :
    (∃ e, hand act s frame = { after := s, answer := .dispatched (.error e) }) ∨
      ∃ m h, Message.decode frame = .ok m ∧ s.bus.handler m.kind = some h ∧
        hand act s frame =
          { after := ⟨s.bus.postAll (act h m s.kept).1, (act h m s.kept).2⟩
            answer := .dispatched (.ok m.kind), ran := [(h, m)]
            posted := (act h m s.kept).1 } := by
  obtain ⟨e, he⟩ | ⟨m, h, hm, hh, hroute⟩ := s.bus.route_cases frame
  · exact .inl ⟨e, by rw [hand, route_of_stops he]⟩
  · exact .inr ⟨m, h, hm, hh, hand_of_route hroute⟩

/-- Only a registration changes who handles a kind. -/
theorem handler_move (act : Conduct H σ) (s : Setting H σ) (m : Move H) (k : Kind) :
    (move act s m).after.bus.handler k = (latest? k [m]).or (s.bus.handler k) := by
  cases m with
  | register k' h =>
    have hlatest : latest? k [Move.register k' h] = if k = k' then some h else none := by
      by_cases hk : k = k' <;> simp [latest?, hk]
    rw [hlatest, move, register]
    by_cases hk : k = k' <;> simp [hk]
  | dispatch frame =>
    rw [move]
    obtain ⟨e, he⟩ | ⟨m, h, -, -, hhand⟩ := hand_cases act s frame
    · rw [he]
      rfl
    · rw [hhand]
      exact congrFun (handler_postAll ..) k
  | receive =>
    rw [move, Bus.receive]
    split <;> rfl
  | _ => rfl

theorem latest?_concat (k : Kind) (moves : List (Move H)) (m : Move H) :
    latest? k (moves ++ [m]) = (latest? k [m]).or (latest? k moves) := by
  rw [latest?, List.filterMap_append, List.getLast?_append]
  rfl

theorem handler_reached (act : Conduct H σ) (kept : σ) (moves : List (Move H)) (k : Kind) :
    (reached act kept moves).bus.handler k = latest? k moves := by
  induction moves using List.reverseRecOn with
  | nil => rfl
  | append_singleton moves m ih =>
    rw [reached_concat, next, handler_move, ih, latest?_concat]

/-! ## The queue -/

/-- While the queue is there, what is posted goes to its end, and what is received is taken off its
front. -/
theorem outbound_move (act : Conduct H σ) {q : List String} (hq : s.bus.outbound = some q)
    {m : Move H} (hm : m ≠ .detach) : ∃ q', (move act s m).after.bus.outbound = some q' ∧
      (move act s m).answer.frames ++ q' =
        q ++ (move act s m).posted.map Message.frame := by
  cases m with
  | register k h => exact ⟨q, hq, (List.append_nil q).symm⟩
  | dispatch frame =>
    rw [move]
    obtain ⟨e, he⟩ | ⟨m, h, -, -, hhand⟩ := hand_cases act s frame
    · rw [he]
      exact ⟨q, hq, (List.append_nil q).symm⟩
    · rw [hhand]
      exact ⟨_, outbound_postAll hq _, rfl⟩
  | post m => exact ⟨_, outbound_postAll hq [m], rfl⟩
  | receive =>
    rw [move, Bus.receive, hq]
    cases q with
    | nil => exact ⟨[], hq, rfl⟩
    | cons f q => exact ⟨q, rfl, (List.append_nil _).symm⟩
  | drain =>
    rw [move, Bus.drain, hq]
    exact ⟨[], rfl, rfl⟩
  | detach => exact absurd rfl hm

theorem queue_reached (act : Conduct H σ) (kept : σ) (hmoves : .detach ∉ moves) :
    ∃ q, (reached act kept moves).bus.outbound = some q ∧
      received act kept moves ++ q = (posted act kept moves).map Message.frame := by
  induction moves using List.reverseRecOn with
  | nil => exact ⟨[], rfl, rfl⟩
  | append_singleton moves m ih =>
    rw [List.mem_append, List.mem_singleton, not_or] at hmoves
    obtain ⟨q, hq, hreceived⟩ := ih hmoves.1
    obtain ⟨q', hq', hmove⟩ := outbound_move act hq (Ne.symm hmoves.2)
    refine ⟨q', reached_concat kept moves m ▸ hq', ?_⟩
    rw [received_concat, posted_concat, List.map_append, ← hreceived, List.append_assoc,
      List.append_assoc]
    exact congrArg _ hmove

theorem post_of_none {b : Bus H} (hb : b.outbound = none) (m : Message) : b.post m = b := by
  obtain ⟨handler, outbound⟩ := b
  obtain rfl : outbound = none := hb
  rfl

theorem postAll_of_none {b : Bus H} (hb : b.outbound = none) (ms : List Message) :
    b.postAll ms = b := by
  induction ms with
  | nil => rfl
  | cons m ms ih =>
    rw [postAll, List.foldl_cons, post_of_none hb]
    exact ih

/-- Once the queue is gone, it stays gone: nothing is received and nothing is kept of what is
posted. -/
theorem move_of_none (act : Conduct H σ) (hs : s.bus.outbound = none) (m : Move H) :
    (move act s m).after.bus.outbound = none ∧ (move act s m).answer.frames = [] := by
  cases m with
  | dispatch frame =>
    rw [move]
    obtain ⟨e, he⟩ | ⟨m, h, -, -, hhand⟩ := hand_cases act s frame
    · rw [he]
      exact ⟨hs, rfl⟩
    · rw [hhand]
      exact ⟨(postAll_of_none hs _).symm ▸ hs, rfl⟩
  | register k h => exact ⟨hs, rfl⟩
  | post m => exact ⟨(congrArg outbound (post_of_none hs m)).trans hs, rfl⟩
  | receive =>
    rw [move, Bus.receive, hs]
    exact ⟨hs, rfl⟩
  | drain =>
    rw [move, Bus.drain, hs]
    exact ⟨rfl, rfl⟩
  | detach => exact ⟨rfl, rfl⟩

theorem reached_of_detach (act : Conduct H σ) (kept : σ) {pre : List (Move H)}
    (post : List (Move H)) :
    (reached act kept (pre ++ .detach :: post)).bus.outbound = none ∧
      received act kept (pre ++ .detach :: post) = received act kept pre := by
  rw [List.append_cons]
  induction post using List.reverseRecOn with
  | nil =>
    rw [List.append_nil, reached_concat, received_concat]
    exact ⟨rfl, List.append_nil _⟩
  | append_singleton post m ih =>
    obtain ⟨hnone, hreceived⟩ := move_of_none act ih.1 m
    rw [← List.append_assoc, reached_concat, received_concat, ih.2]
    refine ⟨hnone, ?_⟩
    rw [next, hreceived, List.append_nil]

/-! ## What a bus keeps to -/

theorem received_all_of_none (act : Conduct H σ) (kept : σ) (hmoves : .detach ∉ moves)
    (hnone : (next act kept moves .receive).answer = .received none) :
    received act kept moves = (posted act kept moves).map Message.frame := by
  obtain ⟨q, hq, hreceived⟩ := queue_reached act kept hmoves
  rw [next, move, Bus.receive, hq] at hnone
  cases q with
  | nil => rwa [List.append_nil] at hreceived
  | cons f q => cases hnone

theorem faithful (act : Conduct H σ) (kept : σ) (moves : List (Move H)) :
    Faithful act kept moves where
  runs_latest frame k hk := by
    rw [next, move] at hk ⊢
    obtain ⟨e, he⟩ | ⟨m, h, hm, hh, hhand⟩ := hand_cases act (reached act kept moves) frame
    · rw [he] at hk
      cases hk
    · rw [hhand] at hk ⊢
      cases hk
      exact ⟨h, m, handler_reached act kept moves m.kind ▸ hh, hm, rfl, rfl⟩
  runs_none m hm := by
    cases m with
    | dispatch frame =>
      rw [next, move] at hm ⊢
      obtain ⟨e, he⟩ | ⟨m, h, -, -, hhand⟩ := hand_cases act (reached act kept moves) frame
      · rw [he]
      · rw [hhand] at hm
        exact absurd rfl (hm m.kind)
    | _ => rfl
  succeeds m h hh := by
    rw [← handler_reached act kept moves] at hh
    rw [next, move, hand_of_route (route_frame hh)]
  queued := queue_reached act kept
  received_all := received_all_of_none act kept
  dropped pre post hmoves hpre := by
    obtain ⟨q, hq, hreceived⟩ := queue_reached act kept hpre
    exact ⟨q, hq, by rw [hmoves, (reached_of_detach act kept post).2, hreceived]⟩
  silent hmem := by
    obtain ⟨pre, post, rfl⟩ := List.append_of_mem hmem
    have hnone : (reached act kept (pre ++ .detach :: post)).bus.outbound = none :=
      (reached_of_detach act kept post).1
    refine ⟨fun m => ?_, fun frame => ?_⟩
    · rw [next, move, post_of_none hnone]
    · rw [next, move]
      obtain ⟨e, he⟩ | ⟨m, h, -, -, hhand⟩ := hand_cases act _ frame
      · rw [he]
      · rw [hhand]
        exact postAll_of_none hnone _

/-- The moves before the transport lets go of the queue. -/
def beforeDetach (moves : List (Move H)) : List (Move H) :=
  moves.takeWhile fun
    | .detach => false
    | _ => true

/-- Not all that is posted in time is received: what is in the queue is lost with it. -/
theorem not_received_all : ¬ ∀ moves : List (Move Responder),
    received respond () moves = (posted respond () (beforeDetach moves)).map Message.frame := by
  intro h
  have hlost := h [.post .ping, .detach, .receive]
  cases hlost

end PublishDesk.Bus
