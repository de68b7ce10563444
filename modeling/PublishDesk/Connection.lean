import PublishDesk.Host.Crew
import PublishDesk.View.Session

/-!
# A host and a view side by side

The frames that each side posts are handed to the other one in order. Frames that are rejected are
lost. A view posts nothing in answer to a frame, so after one exchange nothing is under way but jobs
that wait.
-/

namespace PublishDesk

structure Connection where
  host : HostCrew
  view : Session

namespace Connection

/-- Hand over all frames of the view, let the host's jobs run, and hand over what they have
posted. -/
def exchange (c : Connection) : Connection :=
  let asked := c.view.drain
  let answered := HostCrew.drain (HostCrew.dispatchAll asked.1 c.host).2.settle
  ⟨answered.2, (asked.2.dispatchAll answered.1).ringDue⟩

/-- Let time pass from `now` to `target`, with an exchange whenever the view has done something. -/
def elapse (target now : Nat) (c : Connection) : Connection :=
  let c := exchange { c with view := Session.ringDue { c.view with now := now } }
  match c.view.nextDue? with
  | none => { c with view := { c.view with now := target } }
  | some next =>
    if _h : now < next ∧ next ≤ target then elapse target next c
    else { c with view := { c.view with now := target } }
termination_by target - now

/-- Let milliseconds pass. -/
def advance (milliseconds : Nat) (c : Connection) : Connection :=
  c.elapse (c.view.now + milliseconds) c.view.now

end Connection
end PublishDesk
