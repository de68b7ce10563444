import PublishDesk.Proofs.Connection.Dialogue

/-!
# A dialogue and what surrounds it

The steps of a dialogue get any answers. In a scene the host is told how things are: what the branch
is, what the look-up of the open review gives, and whether the worker is up. All of this may change
between any two steps (`Scene.Step`), and while it does not, the view and the host can settle
(`Scene.Settling`).
-/

namespace PublishDesk

open Relation (ReflTransGen)

namespace Dialogue

/-- The link that the host has answered with last. -/
def lastLink (d : Dialogue) : Option String := Mark.lastLink d.host.crowd.log

/-- A step that gets the answer that these surroundings give. -/
structure StepIn (target : String) (s : Surroundings) (d e : Dialogue) : Prop where
  step : Step target d e
  told : ∀ i m, e.host.crowd.log = d.host.crowd.log ++ [(i, m)] → s.Told d.lastLink m

/-- Steps that get such answers as there are at the time. -/
abbrev ToldSteps (target : String) : Dialogue → Dialogue → Prop :=
  ReflTransGen fun d e => ∃ s, StepIn target s d e

/-- Steps with which the sides settle: nothing changes around the host, and no save is asked for. -/
abbrev Settles (target : String) (s : Surroundings) : Dialogue → Dialogue → Prop :=
  ReflTransGen fun d e => StepIn target s d e ∧ e.asked = d.asked

variable {target : String} {s : Surroundings} {d e : Dialogue}

/-- Where nothing is noted, nothing has been told. -/
theorem Step.stepIn (h : Step target d e) (hlog : e.host.crowd.log = d.host.crowd.log)
    (s : Surroundings) : StepIn target s d e := by
  refine ⟨h, fun i m hm => ?_⟩
  rw [hlog] at hm
  simp at hm

theorem StepIn.work {i : Nat} {c : Crowd Unit} {m : Mark} (hs : Crowd.Step i d.host.crowd c)
    (hm : c.log = d.host.crowd.log ++ [(i, m)]) (ht : s.Told d.lastLink m) :
    StepIn target s d
      { d with host := d.host.note c m, answers := d.answers ++ m.posted?.toList.map (i, ·) } := by
  refine ⟨.work hs hm, fun j n hn => ?_⟩
  obtain ⟨-, heq⟩ := List.append_inj' (hm.symm.trans hn) rfl
  cases heq
  exact ht

theorem Step.toldSteps (h : Step target d e) (hlog : e.host.crowd.log = d.host.crowd.log)
    (s : Surroundings) : ToldSteps target d e := .single ⟨s, h.stepIn hlog s⟩

theorem ToldSteps.steps (h : ToldSteps target d e) : Steps target d e :=
  ReflTransGen.mono (fun _ _ ⟨_, h⟩ => h.step) _ _ h

end Dialogue

/-- A dialogue, and what surrounds its host. -/
structure Scene where
  dialogue : Dialogue
  around : Surroundings

namespace Scene

inductive Step (target : String) (x : Scene) : Scene → Prop
  | go {d : Dialogue} (h : Dialogue.StepIn target x.around x.dialogue d) :
    Step target x { x with dialogue := d }
  | change (s : Surroundings) : Step target x { x with around := s }

abbrev Steps (target : String) : Scene → Scene → Prop := ReflTransGen (Step target)

def Reachable (target : String) (settings : ViewSettings) (x : Scene) : Prop :=
  ∃ s, Steps target ⟨.opened settings, s⟩ x

/-- Whatever is under way takes its course. Nothing changes around the host, and no save is asked
for. -/
abbrev Settling (target : String) : Scene → Scene → Prop :=
  ReflTransGen fun x y =>
    Step target x y ∧ y.around = x.around ∧ y.dialogue.asked = x.dialogue.asked

end Scene

/-- A job has ended, waits for the working tree, or pushes, which takes as long as it likes. -/
inductive Standing.Rests {α : Type} : Standing α → Prop
  | ended (a : α) : Rests (.ready (.done a))
  | waits (p : Job α) : Rests (.waiting p)
  | pushes {s : Standing α} {branch : String} {setUpstream : Bool}
    {next : (RepositoryCall.push branch setUpstream).Answer → Job α}
    (h : s.rest = .ask (.tree (.repository (.push branch setUpstream))) next) : Rests s

namespace Scene

/-- Nothing is under way, and no job goes on by itself. -/
structure Settled (x : Scene) : Prop where
  asks : x.dialogue.view.bus.outbound = some []
  answers : x.dialogue.answers = []
  jobs : ∀ s ∈ x.dialogue.host.crowd.jobs, s.Rests

/-- The view asks for the status. -/
def poll (x : Scene) : Scene :=
  { x with dialogue := { x.dialogue with view := x.dialogue.view.poll } }

variable {target : String} {settings : ViewSettings} {x y : Scene} {d e : Dialogue}

theorem Step.steps (h : Step target x y) : Dialogue.Steps target x.dialogue y.dialogue := by
  cases h with
  | go h => exact .single h.step
  | change s => exact .refl

theorem Steps.dialogue (h : Steps target x y) :
    Dialogue.Steps target x.dialogue y.dialogue := by
  induction h with
  | refl => exact .refl
  | tail _ hs ih => exact ih.trans hs.steps

theorem Reachable.dialogue (h : Reachable target settings x) :
    Dialogue.Reachable target settings x.dialogue := by
  obtain ⟨s, hs⟩ := h
  exact hs.dialogue

theorem Settling.steps (h : Settling target x y) : Steps target x y :=
  ReflTransGen.mono (fun _ _ h => h.1) _ _ h

theorem settling_of_settles {s : Surroundings}
    (h : Dialogue.Settles target s d e) : Settling target ⟨d, s⟩ ⟨e, s⟩ := by
  induction h with
  | refl => exact .refl
  | tail _ hs ih => exact ih.tail ⟨.go hs.1, rfl, hs.2⟩

/-- Answers that there are at the time are those of surroundings that change in between. -/
theorem exists_steps (h : Dialogue.ToldSteps target d e) (s s' : Surroundings) :
    Steps target ⟨d, s⟩ ⟨e, s'⟩ := by
  induction h generalizing s' with
  | refl => exact .single (.change s')
  | tail _ hs ih =>
    obtain ⟨t, ht⟩ := hs
    exact ((ih t).tail (.go ht)).tail (.change s')

end Scene
end PublishDesk
