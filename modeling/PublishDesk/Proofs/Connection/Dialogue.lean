import PublishDesk.Proofs.Client.SaveIndicator
import PublishDesk.Proofs.Connection.Sides
import PublishDesk.Proofs.Host.HostCrowd

/-!
# A view and a host, step by step

In a dialogue the view and the host hand over one frame at a time, and in between the jobs of the
host make their steps and time passes. `Dialogue.Step` is one step of any of them.
`Dialogue.Sound` is the invariant of all runs: the save requests that the view has accepted are
those that the host has begun and those that wait for it, in this order. The runs of a `Connection`
are among those of a dialogue (`Dialogue.exists_reachable`).
-/

namespace PublishDesk

open Job

theorem Message.frame_inj {m m' : Message} (h : m.frame = m'.frame) : m = m' := by
  have hdecoded := m.decode_frame
  rw [h, m'.decode_frame] at hdecoded
  exact (Except.ok.inj hdecoded).symm

/-- The frame that the host is given is that of what the view has asked first. -/
theorem Session.Stands.receive {s : Session} {asks : List Message} (H : s.Stands asks) {m : Message}
    {bus : Bus Unit} (h : s.bus.receive = (some m.frame, bus)) :
    ∃ rest, asks = m :: rest ∧ Stands rest { s with bus := bus } := by
  rw [Bus.receive, H.outbound] at h
  cases asks with
  | nil => cases h
  | cons m' rest =>
    obtain ⟨hframe, rfl⟩ := Prod.mk.inj h
    obtain rfl := Message.frame_inj (Option.some.inj hframe)
    exact ⟨rest, rfl, H.pong, H.saveResult, rfl, fun n hn => H.asks n (.tail _ hn), H.repeated⟩

theorem HostCrowd.saves_handle (target : String) (m : Message) (x : HostCrowd) :
    (x.handle target m).saves = x.saves + m.request?.toList.length := by
  cases m with
  | ping =>
    rw [handle]
    split
    · rfl
    · exact List.countP_append
  | requestSave message => exact List.countP_append
  | pong | saveResult => rfl

structure Dialogue where
  view : Session
  host : HostCrowd := {}
  /-- What has been posted for the view and not been received, with the numbers of the jobs. -/
  answers : List (Nat × Message) := []
  /-- The messages of the save requests that the view has accepted. -/
  asked : List String := []

namespace Dialogue

def opened (settings : ViewSettings) : Dialogue where
  view := Session.attach { settings := settings }

def accept (message : String) (view : Session) (d : Dialogue) : Dialogue :=
  { d with view := view, asked := d.asked ++ [message] }

inductive Step (target : String) (d : Dialogue) : Dialogue → Prop
  | save {message : String} {view : Session} (h : d.view.requestSave message = (.ok (), view)) :
    Step target d (d.accept message view)
  | poll : Step target d { d with view := d.view.poll }
  | runLoop : Step target d { d with view := d.view.runLoop }
  | stopLoop : Step target d { d with view := d.view.stopLoop.2 }
  | pass {now : Nat} (h : d.view.now ≤ now) :
    Step target d { d with view := Session.ringDue { d.view with now := now } }
  | ask {m : Message} {bus : Bus Unit} (h : d.view.bus.receive = (some m.frame, bus)) :
    Step target d { d with view := { d.view with bus := bus }, host := d.host.handle target m }
  | work {i : Nat} {c : Crowd Unit} {m : Mark} (hs : Crowd.Step i d.host.crowd c)
    (hm : c.log = d.host.crowd.log ++ [(i, m)]) :
    Step target d
      { d with host := d.host.note c m, answers := d.answers ++ m.posted?.toList.map (i, ·) }
  | answer {i : Nat} {m : Message} {rest : List (Nat × Message)} (h : d.answers = (i, m) :: rest) :
    Step target d { d with view := (d.view.dispatch m.frame).2, answers := rest }

abbrev Steps (target : String) : Dialogue → Dialogue → Prop := Relation.ReflTransGen (Step target)

def Reachable (target : String) (settings : ViewSettings) (d : Dialogue) : Prop :=
  Steps target (opened settings) d

variable {target : String} {settings : ViewSettings} {d e : Dialogue} {asks : List Message}
  {message : String} {view : Session} {i k : Nat}

/-! ## The invariant -/

structure Sound (target : String) (asks : List Message) (d : Dialogue) : Prop where
  host : d.host.Sound target
  view : d.view.Stands asks
  answers : ∀ a ∈ d.answers, a.2.isAnswer
  known : d.host.saves ≤ d.asked.length
  waiting : d.asked.drop d.host.saves = asks.filterMap Message.request?
  begun : ∀ (i : Nat) k message,
    d.host.origins[i]? = some (.save k message) → d.asked[k]? = some message

theorem sound_opened (settings : ViewSettings) : Sound target [] (opened settings) where
  host := HostCrowd.sound_idle
  view := ⟨rfl, rfl, rfl, nofun, nofun⟩
  answers := nofun
  known := Nat.le_refl 0
  waiting := rfl
  begun := nofun

theorem Sound.setView (H : Sound target asks d) {asks' : List Message} {view : Session}
    (hview : view.Stands (asks ++ asks')) (hnone : asks'.filterMap Message.request? = []) :
    Sound target (asks ++ asks') { d with view := view } := by
  refine ⟨H.host, hview, H.answers, H.known, ?_, H.begun⟩
  rw [List.filterMap_append, hnone, List.append_nil]
  exact H.waiting

theorem Sound.accept (H : Sound target asks d) (h : d.view.requestSave message = (.ok (), view)) :
    Sound target (asks ++ [.requestSave message]) (d.accept message view) := by
  refine ⟨H.host, (H.view.requestSave h).1, H.answers, ?_, ?_, fun i k m hi => ?_⟩
  · exact Nat.le_trans H.known (List.length_append ▸ Nat.le_add_right _ _)
  · rw [Dialogue.accept, List.drop_append_of_le_length H.known, H.waiting, List.filterMap_append]
    rfl
  · have hk := H.begun i k m hi
    exact (List.getElem?_append_left (List.getElem?_eq_some_iff.1 hk).1).trans hk

theorem Sound.ask (H : Sound target asks d) {m : Message} {bus : Bus Unit}
    (h : d.view.bus.receive = (some m.frame, bus)) : ∃ rest, asks = m :: rest ∧
      Sound target rest
        { d with view := { d.view with bus := bus }, host := d.host.handle target m } := by
  obtain ⟨rest, rfl, hview⟩ := H.view.receive h
  have hsaves := d.host.saves_handle target m
  have hwaiting : d.asked.drop d.host.saves =
      m.request?.toList ++ rest.filterMap Message.request? := by
    rw [H.waiting, List.filterMap_cons]
    cases m.request? <;> rfl
  have hlength := congrArg List.length hwaiting
  rw [List.length_append, List.length_drop] at hlength
  have hknown := H.known
  refine ⟨rest, rfl, H.host.handle m, hview, H.answers, ?_, ?_, fun i k message hi => ?_⟩
  · change (d.host.handle target m).saves ≤ d.asked.length
    omega
  · rw [hsaves, ← List.drop_drop, hwaiting, List.drop_left]
  · obtain hi | ⟨-, ho | ⟨message', rfl, ho⟩⟩ := HostCrowd.getElem?_handle hi
    · exact H.begun i k message hi
    · cases ho
    · cases ho
      rw [← Nat.add_zero d.host.saves, ← List.getElem?_drop, hwaiting]
      rfl

theorem posted?_eq_some_iff {m : Mark} {n : Message} :
    m.posted? = some n ↔ m = .met (posting n) := by
  constructor
  · intro h
    unfold Mark.posted? at h
    split at h
    · cases h
      rfl
    · cases h
  · rintro rfl
    rfl

theorem Sound.work (H : Sound target asks d) {c : Crowd Unit} {m : Mark}
    (hs : Crowd.Step i d.host.crowd c) (hm : c.log = d.host.crowd.log ++ [(i, m)]) :
    Sound target asks
      { d with host := d.host.note c m, answers := d.answers ++ m.posted?.toList.map (i, ·) } := by
  have hhost := H.host.note (m := m) hs
  refine ⟨hhost, H.view, fun a ha => ?_, H.known, H.waiting, H.begun⟩
  obtain ha | ha := List.mem_append.1 ha
  · exact H.answers a ha
  · obtain ⟨n, hn, rfl⟩ := List.mem_map.1 ha
    obtain rfl := posted?_eq_some_iff.1 (Option.mem_toList.1 hn)
    obtain ⟨o, ho⟩ := H.host.exists_origin hs
    obtain ⟨s, -, hleads⟩ := hhost.exists_leads ho
    have hmem : n ∈ posts ((d.host.note c (.met (posting n))).steps i) := by
      rw [HostCrowd.steps_note hm, if_pos rfl, posts_append]
      exact List.mem_append_right _ (.head _)
    cases o with
    | ping => exact isAnswer_of_leads_poll hleads n hmem
    | save k message => exact isAnswer_of_leads_save hleads n hmem

theorem Sound.answer (H : Sound target asks d) {m : Message} {rest : List (Nat × Message)}
    (h : d.answers = (i, m) :: rest) : d.view.dispatch m.frame = (.ok m.kind, d.view.handle m) ∧
      Sound target asks { d with view := d.view.handle m, answers := rest } := by
  have hm : m.isAnswer := H.answers (i, m) (h ▸ .head _)
  refine ⟨(Session.dispatch_frame H.view hm).1, H.host, H.view.handle m, fun a ha => ?_, H.known,
    H.waiting, H.begun⟩
  exact H.answers a (h ▸ .tail _ ha)

theorem Sound.step (H : Sound target asks d) (h : Step target d e) :
    ∃ asks', Sound target asks' e := by
  cases h with
  | save h => exact ⟨_, H.accept h⟩
  | poll => exact ⟨_, H.setView H.view.poll rfl⟩
  | runLoop =>
    obtain ⟨asks', hview, hnone, -⟩ := H.view.runLoop
    exact ⟨_, H.setView hview hnone⟩
  | stopLoop =>
    have hview := (List.append_nil asks).symm ▸ H.view.stopLoop
    exact ⟨_, H.setView hview rfl⟩
  | @pass now h =>
    have hview : Session.Stands asks { d.view with now := now } := H.view.congr rfl rfl (.refl _)
    obtain ⟨asks', hring, hnone, -⟩ := hview.ringDue
    exact ⟨_, H.setView hring hnone⟩
  | ask h =>
    obtain ⟨rest, -, H'⟩ := H.ask h
    exact ⟨rest, H'⟩
  | work hs hm => exact ⟨asks, H.work hs hm⟩
  | answer h =>
    obtain ⟨hdispatch, H'⟩ := H.answer h
    rw [hdispatch]
    exact ⟨asks, H'⟩

theorem Sound.steps (H : Sound target asks d) (h : Steps target d e) :
    ∃ asks', Sound target asks' e := by
  induction h with
  | refl => exact ⟨asks, H⟩
  | tail _ hs ih =>
    obtain ⟨asks', H'⟩ := ih
    exact H'.step hs

theorem Reachable.sound (h : Reachable target settings d) : ∃ asks, Sound target asks d :=
  (sound_opened settings).steps h

/-- The host of a dialogue takes messages, and its jobs make their steps, as those of any host. -/
theorem Reachable.exists_run (h : Reachable target settings d) :
    ∃ l, HostCrowd.Run target l d.host := by
  induction h with
  | refl => exact ⟨[], .idle⟩
  | tail _ hs ih =>
    obtain ⟨l, hl⟩ := ih
    cases hs with
    | save | poll | runLoop | stopLoop | pass | answer => exact ⟨l, hl⟩
    | ask h => exact ⟨_, hl.take _⟩
    | work hs hm => exact ⟨_, hl.work hs hm⟩

end Dialogue
end PublishDesk
