import Mathlib.Logic.Relation
import PublishDesk.Client.ViewRun
import PublishDesk.Proofs.Host.Answers

/-!
# A host and its callers

Callers attach to a host one after the other. Each asks for one save, waits for its result, and ends
with an exit code; then, or before, it leaves. The host's jobs go on side by side, and what they
post waits in a queue for the caller that holds the stream. `Service.Step` is one step of any of
them. `Service.Sound` is the invariant of all runs: every save of the host has been requested by a
caller whose request is no longer under way.
-/

namespace PublishDesk

/-- A view takes a message, unless it is to stop or its stream has ended. -/
def ViewRun.take (m : Message) (v : ViewRun) : ViewRun :=
  if v.cancelled || v.streamEnd.isSome then v else { v with session := v.session.handle m }

theorem ViewRun.take_of_open {v : ViewRun} (hcancelled : v.cancelled = false)
    (hstream : v.streamEnd = none) (m : Message) :
    v.take m = { v with session := v.session.handle m } := by
  rw [ViewRun.take, hcancelled, hstream]
  rfl

/-- Where the request of a caller is. -/
inductive Request where
  | unmade
  | underway (message : String)
  /-- The host has it, or it has been lost. -/
  | settled
deriving DecidableEq, Repr

/-- How far a caller has come. -/
inductive CallerPhase where
  | attached (view : ViewRun)
  | waiting (run : SaveRun)
  | ended (ending : Ending)

def CallerPhase.mapView (f : ViewRun → ViewRun) : CallerPhase → CallerPhase
  | .attached view => .attached (f view)
  | .waiting run => .waiting { run with view := f run.view }
  | .ended ending => .ended ending

structure Caller where
  phase : CallerPhase
  request : Request := .unmade

namespace Caller

def setPhase (p : CallerPhase) (c : Caller) : Caller := { c with phase := p }

def mapView (f : ViewRun → ViewRun) (c : Caller) : Caller := c.setPhase (c.phase.mapView f)

end Caller

structure Service where
  crowd : Crowd Unit := {}
  /-- What each job of the crowd has been started for. -/
  origins : List Origin := []
  /-- What has been posted and not been received, with the numbers of the jobs. -/
  queue : List (Nat × Message) := []
  callers : List Caller := []
  /-- The caller that holds the stream. -/
  holder : Option Nat := none

namespace Service

/-- What a step posts, given what is noted of it. -/
def posted (i : Nat) : Mark → List (Nat × Message)
  | .met ⟨.post m, _⟩ => [(i, m)]
  | _ => []

def setCaller (k : Nat) (c : Caller) (x : Service) : Service :=
  { x with callers := x.callers.set k c }

def startJob (target : String) (o : Origin) (x : Service) : Service :=
  { x with crowd := x.crowd.start (o.job target), origins := x.origins ++ [o] }

/-- Open the stream for a new caller. What has been posted so far is dropped. -/
def attach (settings : ViewSettings) (x : Service) : Service :=
  { x with
    queue := []
    callers := x.callers ++ [{ phase := .attached (ViewRun.connected settings) }]
    holder := some x.callers.length }

inductive Step (target : String) (x : Service) : Service → Prop
  | attach (settings : ViewSettings) (hh : x.holder = none) : Step target x (x.attach settings)
  | request {k : Nat} {view : ViewRun} {run : SaveRun} {message : String} {seconds : Nat}
    (hh : x.holder = some k) (hk : x.callers[k]? = some { phase := .attached view })
    (hrun : SaveRun.start message seconds view = .ok run) :
    Step target x (x.setCaller k { phase := .waiting run, request := .underway message })
  | refuse {k : Nat} {view : ViewRun} {ending : Ending} {message : String} {seconds : Nat}
    (hh : x.holder = some k) (hk : x.callers[k]? = some { phase := .attached view })
    (hrun : SaveRun.start message seconds view = .error ending) :
    Step target x (x.setCaller k { phase := .ended ending })
  | deliver {k : Nat} {phase : CallerPhase} {message : String}
    (hk : x.callers[k]? = some { phase := phase, request := .underway message }) :
    Step target x
      ((x.setCaller k { phase := phase, request := .settled }).startJob target (.save k message))
  | lose {k : Nat} {phase : CallerPhase} {message : String}
    (hk : x.callers[k]? = some { phase := phase, request := .underway message }) :
    Step target x (x.setCaller k { phase := phase, request := .settled })
  | ping : Step target x (x.startJob target .ping)
  | work {i : Nat} {c : Crowd Unit} {m : Mark} (hs : Crowd.Step i x.crowd c)
    (hm : c.log = x.crowd.log ++ [(i, m)]) :
    Step target x { x with crowd := c, queue := x.queue ++ posted i m }
  | receive {k i : Nat} {c : Caller} {m : Message} {rest : List (Nat × Message)}
    (hh : x.holder = some k) (hk : x.callers[k]? = some c) (hq : x.queue = (i, m) :: rest) :
    Step target x ({ x with queue := rest }.setCaller k (c.mapView (·.take m)))
  | advance {k : Nat} {c : Caller} (milliseconds : Nat) (hk : x.callers[k]? = some c) :
    Step target x (x.setCaller k (c.mapView (·.advance milliseconds)))
  | endStream {k : Nat} {c : Caller} (result : Except TransportFailure Unit)
    (hk : x.callers[k]? = some c) : Step target x (x.setCaller k (c.mapView (·.endStream result)))
  | look {k : Nat} {run : SaveRun} {request : Request} {ending : Ending}
    (hk : x.callers[k]? = some { phase := .waiting run, request := request })
    (hend : run.poll = some ending) :
    Step target x (x.setCaller k { phase := .ended ending, request := request })
  | leave {k : Nat} (hh : x.holder = some k) : Step target x { x with holder := none }

abbrev Steps (target : String) : Service → Service → Prop := Relation.ReflTransGen (Step target)

/-- The states that a host can come to with its callers. -/
def Reachable (target : String) (x : Service) : Prop := Steps target {} x

/-! ## The invariant -/

structure Sound (target : String) (x : Service) : Prop where
  follows : Crowd.Follows (x.origins.map (·.job target)) x.crowd
  orderly : ∃ l, Crowd.Orderly x.crowd l
  /-- The caller that holds the stream is the last one that has come. -/
  latest : ∀ k, x.holder = some k → x.callers.length = k + 1
  requested : ∀ (i : Nat) k message, x.origins[i]? = some (.save k message) →
    ∃ c, x.callers[k]? = some c ∧ c.request = .settled

variable {target : String} {x y : Service} {k : Nat} {c c' : Caller}

theorem getElem?_setCaller (hk : x.callers[k]? = some c) (c' : Caller) (j : Nat) :
    (x.setCaller k c').callers[j]? = if j = k then some c' else x.callers[j]? := by
  have hlt : k < x.callers.length := (List.getElem?_eq_some_iff.1 hk).1
  rw [setCaller, List.getElem?_set]
  by_cases hj : k = j
  · simp [← hj, hlt]
  · rw [if_neg hj, if_neg fun h => hj h.symm]

/-- The history of a job, given what it has been started for. -/
theorem Sound.exists_history (H : Sound target x) {i : Nat} {o : Origin}
    (hi : x.origins[i]? = some o) : ∃ s, x.crowd.jobs[i]? = some s ∧
      (o.job target).History (Crowd.marksOf x.crowd.log i) s := by
  refine H.follows.exists_history ?_
  rw [List.getElem?_map, hi]
  rfl

theorem Sound.setCaller (H : Sound target x) (hk : x.callers[k]? = some c)
    (hc : c.request = .settled → c'.request = .settled) : Sound target (x.setCaller k c') where
  follows := H.follows
  orderly := H.orderly
  latest j hj := by
    rw [Service.setCaller, List.length_set]
    exact H.latest j hj
  requested i j message hi := by
    obtain ⟨d, hd, hsettled⟩ := H.requested i j message hi
    rw [getElem?_setCaller hk]
    split
    · next hjk =>
      obtain rfl : c = d := by simpa [hjk, hk] using hd
      exact ⟨c', rfl, hc hsettled⟩
    · exact ⟨d, hd, hsettled⟩

theorem Sound.startJob (H : Sound target x) {o : Origin}
    (ho : ∀ k message, o = .save k message → ∃ c, x.callers[k]? = some c ∧ c.request = .settled) :
    Sound target (x.startJob target o) where
  follows := by
    rw [Service.startJob, List.map_append]
    exact H.follows.start _
  orderly := by
    obtain ⟨l, hl⟩ := H.orderly
    exact ⟨l, hl.start (o.keeps_job target)⟩
  latest := H.latest
  requested i j message hi := by
    rw [Service.startJob, List.getElem?_append] at hi
    split at hi
    · exact H.requested i j message hi
    · rw [List.getElem?_singleton] at hi
      split at hi
      · exact ho j message (Option.some.inj hi)
      · cases hi

theorem Sound.step (H : Sound target x) (h : Step target x y) : Sound target y := by
  cases h with
  | attach settings hh =>
    refine ⟨H.follows, H.orderly, fun k hk => ?_, fun i k message hi => ?_⟩
    · obtain rfl := Option.some.inj hk
      exact List.length_append
    · obtain ⟨c, hc, hsettled⟩ := H.requested i k message hi
      refine ⟨c, ?_, hsettled⟩
      rw [attach, List.getElem?_append_left (List.getElem?_eq_some_iff.1 hc).1]
      exact hc
  | request hh hk hrun => exact H.setCaller hk nofun
  | refuse hh hk hrun => exact H.setCaller hk nofun
  | lose hk => exact H.setCaller hk fun _ => rfl
  | deliver hk =>
    refine (H.setCaller hk fun _ => rfl).startJob fun k message ho => ?_
    cases ho
    exact ⟨_, by rw [getElem?_setCaller hk, if_pos rfl], rfl⟩
  | ping => exact H.startJob nofun
  | work hs hm =>
    obtain ⟨l, hl⟩ := H.orderly
    exact ⟨H.follows.step hs, hl.step hs, H.latest, H.requested⟩
  | receive hh hk hq =>
    exact Sound.setCaller ⟨H.follows, H.orderly, H.latest, H.requested⟩ hk id
  | advance milliseconds hk => exact H.setCaller hk id
  | endStream result hk => exact H.setCaller hk id
  | look hk hend => exact H.setCaller hk id
  | leave hh => exact ⟨H.follows, H.orderly, nofun, H.requested⟩

theorem Sound.steps (H : Sound target x) (h : Steps target x y) : Sound target y := by
  induction h with
  | refl => exact H
  | tail _ hs ih => exact ih.step hs

theorem Reachable.sound (h : Reachable target x) : Sound target x := by
  have hempty : Sound target {} := ⟨.nil, ⟨_, .nil⟩, nofun, nofun⟩
  exact hempty.steps h

/-- What the jobs do, the host does. All that they post waits in the queue. -/
theorem steps_of_crowd (target : String) {c : Crowd Unit}
    (h : Relation.ReflTransGen (fun c c' => ∃ i, Crowd.Step i c c') x.crowd c) :
    ∃ l, c.log = x.crowd.log ++ l ∧ Steps target x
      { x with crowd := c, queue := x.queue ++ l.flatMap fun e => posted e.1 e.2 } := by
  induction h with
  | refl =>
    refine ⟨[], (List.append_nil _).symm, ?_⟩
    rw [List.flatMap_nil, List.append_nil]
  | @tail c c' _ hs ih =>
    obtain ⟨l, hl, hsteps⟩ := ih
    obtain ⟨i, hs⟩ := hs
    obtain ⟨m, -, -, -, -, hm, -⟩ := hs.inv
    refine ⟨l ++ [(i, m)], by rw [hm, hl, List.append_assoc], hsteps.tail ?_⟩
    rw [List.flatMap_append, ← List.append_assoc, List.flatMap_singleton]
    exact .work hs hm

end Service
end PublishDesk
