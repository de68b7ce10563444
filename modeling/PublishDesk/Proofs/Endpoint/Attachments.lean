import Mathlib.Data.List.Basic
import PublishDesk.Message.Frame

/-!
# Frames and the views they are for

A queue of frames outlives the views that take frames off it. What happens is kept in a log, and
`Account` is what the log says of each attachment: which frames were posted while the view was
attached, and which of them it received. `Stage.Path` holds the logs of a queue that is emptied when
a view attaches and serves one view at a time, and `Stage.Path.told` says what the account of such a
log is like.
-/

namespace PublishDesk

/-- What happens between a host and the views that attach to it. -/
inductive StreamEvent where
  | attached
  /-- A view that asks for the stream does not get it. -/
  | refused
  | posted (frame : String)
  /-- A frame is delivered to the view that is attached. -/
  | delivered (frame : String)
  /-- The view that is attached leaves, or its stream ends. -/
  | detached
  | shutDown
deriving DecidableEq, Repr

def StreamEvent.delivered? : StreamEvent → Option String
  | .delivered f => some f
  | _ => none

/-- What a log says of one attachment. -/
structure Attachment where
  /-- The number of frames that had been posted before it. -/
  first : Nat
  /-- The frames that were posted while the view was attached. -/
  posted : List String := []
  /-- The frames that were delivered to the view. -/
  received : List String := []
deriving DecidableEq, Repr

/-- What a log says. -/
structure Account where
  posted : List String := []
  past : List Attachment := []
  current : Option Attachment := none

namespace Account

/-- All attachments, oldest first. -/
def attachments (a : Account) : List Attachment := a.past ++ a.current.toList

def note (a : Account) : StreamEvent → Account
  | .attached => { a with past := a.attachments, current := some { first := a.posted.length } }
  | .posted f =>
    { a with
      posted := a.posted ++ [f]
      current := a.current.map fun t => { t with posted := t.posted ++ [f] } }
  | .delivered f =>
    { a with current := a.current.map fun t => { t with received := t.received ++ [f] } }
  | .detached => { a with past := a.attachments, current := none }
  | .refused | .shutDown => a

def ofLog (l : List StreamEvent) : Account := l.foldl note {}

/-- Which of the frames posted have been received, by their numbers. -/
def deliveries (a : Account) : List Nat :=
  a.attachments.flatMap fun t => List.range' t.first t.received.length

theorem ofLog_concat (l : List StreamEvent) (ev : StreamEvent) :
    ofLog (l ++ [ev]) = (ofLog l).note ev := List.foldl_append

end Account

/-- What an attachment depends on: whether a view is attached, the frames that are queued, and
whether nothing is delivered any more. -/
structure Stage where
  held : Bool
  queue : List String
  down : Bool
deriving DecidableEq, Repr

namespace Stage

inductive Step : StreamEvent → Stage → Stage → Prop
  | attached {s : Stage} (h : s.held = false) :
    Step .attached s { s with held := true, queue := [] }
  | refused {s : Stage} (h : s.held = true) : Step .refused s s
  | posted {s : Stage} (f : String) : Step (.posted f) s { s with queue := s.queue ++ [f] }
  | delivered {s : Stage} {f : String} {queue : List String} (h : s.held = true)
    (hup : s.down = false) (hqueue : s.queue = f :: queue) :
    Step (.delivered f) s { s with queue := queue }
  | detached {s : Stage} (h : s.held = true) : Step .detached s { s with held := false }
  | shutDown {s : Stage} : Step .shutDown s { s with down := true }

/-- A log that leads from one stage to another. -/
inductive Path (s : Stage) : List StreamEvent → Stage → Prop
  | nil : Path s [] s
  | snoc {l : List StreamEvent} {ev : StreamEvent} {s' s'' : Stage} :
    Path s l s' → Step ev s' s'' → Path s (l ++ [ev]) s''

variable {s s' s'' : Stage} {l l' : List StreamEvent} {ev : StreamEvent}

theorem Path.single (h : Step ev s s') : Path s [ev] s' := .snoc .nil h

theorem Path.trans (h : Path s l s') (h' : Path s' l' s'') : Path s (l ++ l') s'' := by
  induction h' with
  | nil => rwa [List.append_nil]
  | snoc _ hstep ih =>
    rw [← List.append_assoc]
    exact ih.snoc hstep

theorem Path.posted (s : Stage) (frames : List String) :
    Path s (frames.map .posted) { s with queue := s.queue ++ frames } := by
  induction frames generalizing s with
  | nil => simpa using Path.nil (s := s)
  | cons f frames ih =>
    have hrest := (Path.single (.posted f)).trans (ih { s with queue := s.queue ++ [f] })
    simpa using hrest

theorem Path.delivered (hheld : s.held = true) (hup : s.down = false) {frames queue : List String}
    (hqueue : s.queue = frames ++ queue) :
    Path s (frames.map .delivered) { s with queue := queue } := by
  induction frames generalizing s with
  | nil =>
    obtain rfl : s.queue = queue := hqueue
    exact .nil
  | cons f frames ih =>
    exact (Path.single (.delivered hheld hup hqueue)).trans
      (ih (s := { s with queue := frames ++ queue }) hheld hup rfl)

/-! ## What the log says -/

end Stage

/-- A view has received the first of the frames that were posted while it was attached. -/
structure Attachment.Fair (all : List String) (t : Attachment) : Prop where
  first_le : t.first ≤ all.length
  posted : t.posted <+: all.drop t.first
  received : t.received <+: t.posted

namespace Attachment

variable {all : List String} {t : Attachment}

theorem Fair.length_le (h : t.Fair all) : t.first + t.posted.length ≤ all.length := by
  have hlength := h.posted.length_le
  rw [List.length_drop] at hlength
  have hfirst := h.first_le
  omega

theorem Fair.post (h : t.Fair all) (f : String) : t.Fair (all ++ [f]) where
  first_le := by
    rw [List.length_append]
    exact Nat.le_add_right_of_le h.first_le
  posted := by
    rw [List.drop_append_of_le_length h.first_le]
    exact h.posted.trans (List.prefix_append ..)
  received := h.received

/-- A view that is attached has received what was posted, up to what is queued. -/
structure Current (all queue : List String) (t : Attachment) : Prop where
  first_le : t.first ≤ all.length
  posted : t.posted = all.drop t.first
  received : t.posted = t.received ++ queue

theorem Current.fair {queue : List String} (h : t.Current all queue) : t.Fair all where
  first_le := h.first_le
  posted := h.posted ▸ List.prefix_rfl
  received := h.received ▸ List.prefix_append ..

end Attachment

namespace Account

/-- What an account is like, given the stage that its log has come to. -/
structure Sound (a : Account) (s : Stage) : Prop where
  held : a.current.isSome = s.held
  current : ∀ t, a.current = some t → t.Current a.posted s.queue
  past : ∀ t ∈ a.past, t.Fair a.posted
  apart : a.attachments.Pairwise fun t t' => t.first + t.posted.length ≤ t'.first

variable {a : Account} {s s' : Stage} {ev : StreamEvent}

theorem Sound.fair (H : a.Sound s) {t : Attachment} (ht : t ∈ a.attachments) : t.Fair a.posted := by
  obtain ht | ht := List.mem_append.1 ht
  · exact H.past t ht
  · exact (H.current t (by simpa using ht)).fair

theorem attachments_of_some {t : Attachment} (h : a.current = some t) :
    a.attachments = a.past ++ [t] := by
  rw [attachments, h]
  rfl

/-- The bounds of the attachments stay as they are when the one at the end gets longer. -/
theorem Sound.apart_current (H : a.Sound s) {t t' : Attachment} (ht : a.current = some t)
    (hfirst : t'.first = t.first) :
    (a.past ++ [t']).Pairwise fun t t' => t.first + t.posted.length ≤ t'.first := by
  have hapart := H.apart
  rw [attachments_of_some ht] at hapart
  obtain ⟨hpast, -, hlast⟩ := List.pairwise_append.1 hapart
  refine List.pairwise_append.2 ⟨hpast, List.pairwise_singleton .., fun u hu u' hu' => ?_⟩
  obtain rfl := List.mem_singleton.1 hu'
  exact hfirst ▸ hlast u hu t (.head _)

theorem Sound.step (H : a.Sound s) (h : s.Step ev s') : (a.note ev).Sound s' := by
  cases h with
  | attached hfree =>
    refine ⟨rfl, fun t ht => ?_, fun t ht => H.fair ht, ?_⟩
    · cases ht
      exact ⟨Nat.le_refl _, List.drop_length.symm, rfl⟩
    · refine List.pairwise_append.2 ⟨H.apart, List.pairwise_singleton .., fun u hu u' hu' => ?_⟩
      obtain rfl := List.mem_singleton.1 hu'
      exact (H.fair hu).length_le
  | refused | shutDown => exact ⟨H.held, H.current, H.past, H.apart⟩
  | posted f =>
    refine ⟨by simpa [note] using H.held, fun t ht => ?_, fun t ht => (H.past t ht).post f, ?_⟩
    · obtain ⟨u, hu, rfl⟩ := Option.map_eq_some_iff.1 ht
      obtain ⟨hfirst, hposted, hreceived⟩ := H.current u hu
      refine ⟨((H.current u hu).fair.post f).first_le, ?_, ?_⟩
      · dsimp only [note]
        rw [List.drop_append_of_le_length hfirst, hposted]
      · dsimp only
        rw [hreceived, List.append_assoc]
    · cases hcurrent : a.current with
      | none =>
        have hsame : (a.note (.posted f)).attachments = a.attachments := by
          rw [attachments, note, hcurrent, attachments, hcurrent]
          rfl
        exact hsame ▸ H.apart
      | some t =>
        rw [attachments, note, hcurrent]
        exact H.apart_current hcurrent rfl
  | @delivered _ f queue hheld hup hqueue =>
    obtain ⟨t, ht⟩ := Option.isSome_iff_exists.1 (H.held.trans hheld)
    obtain ⟨hfirst, hposted, hreceived⟩ := H.current t ht
    refine ⟨by simpa [note] using H.held, fun u hu => ?_, H.past, ?_⟩
    · rw [note, ht] at hu
      cases hu
      refine ⟨hfirst, hposted, ?_⟩
      dsimp only
      rw [hreceived, hqueue, List.append_assoc]
      rfl
    · rw [attachments, note, ht]
      exact H.apart_current ht rfl
  | detached hheld =>
    refine ⟨rfl, nofun, fun u hu => H.fair hu, ?_⟩
    have hsame : (a.note .detached).attachments = a.attachments := List.append_nil _
    exact hsame ▸ H.apart

end Account

/-! ## Whole logs -/

namespace Stage

variable {s s' : Stage} {l : List StreamEvent} {ev : StreamEvent}

theorem Path.sound (h : Path s l s') (hs : s.held = false) : (Account.ofLog l).Sound s' := by
  induction h with
  | nil => exact ⟨hs.symm, nofun, nofun, .nil⟩
  | snoc _ hstep ih =>
    rw [Account.ofLog_concat]
    exact ih.step hstep

/-- A path is at some stage when an event of it happens. -/
theorem Path.split {before after : List StreamEvent} (h : Path s (before ++ ev :: after) s') :
    ∃ s₁ s₂, Path s before s₁ ∧ Step ev s₁ s₂ ∧ Path s₂ after s' := by
  generalize hl : before ++ ev :: after = l at h
  induction h generalizing after with
  | nil => simp at hl
  | @snoc l' ev' s₁ s₂ hpath hstep ih =>
    obtain rfl | ⟨rest, last, rfl⟩ := List.eq_nil_or_concat after
    · obtain ⟨rfl, hev⟩ := List.append_inj' hl rfl
      obtain rfl := List.singleton_inj.1 hev
      exact ⟨_, _, hpath, hstep, .nil⟩
    · rw [List.concat_eq_append] at hl ⊢
      rw [← List.cons_append, ← List.append_assoc] at hl
      obtain ⟨hfront, hev⟩ := List.append_inj' hl rfl
      obtain rfl := List.singleton_inj.1 hev
      obtain ⟨s₃, s₄, hbefore, hmid, hafter⟩ := ih hfront
      exact ⟨s₃, s₄, hbefore, hmid, hafter.snoc hstep⟩

/-- Nothing is delivered once the stage is down. -/
theorem Path.silent (h : Path s l s') (hs : s.down = true) :
    l.filterMap StreamEvent.delivered? = [] ∧ s'.down = true := by
  induction h with
  | nil => exact ⟨rfl, hs⟩
  | snoc _ hstep ih =>
    obtain ⟨hnone, hdown⟩ := ih
    rw [List.filterMap_append, hnone]
    cases hstep with
    | delivered _ hup _ =>
      rw [hdown] at hup
      cases hup
    | shutDown => exact ⟨rfl, rfl⟩
    | attached | refused | posted | detached => exact ⟨rfl, hdown⟩

/-- Whatever is delivered is received by a view. -/
theorem Path.delivered_eq (h : Path s l s') (hs : s.held = false) :
    l.filterMap StreamEvent.delivered? =
      (Account.ofLog l).attachments.flatMap Attachment.received := by
  induction h with
  | nil => rfl
  | @snoc l ev s₁ s₂ hpath hstep ih =>
    have hsound := hpath.sound hs
    rw [List.filterMap_append, ih, Account.ofLog_concat]
    generalize Account.ofLog l = a at hsound
    cases hstep with
    | attached | detached => simp [Account.attachments, Account.note, StreamEvent.delivered?]
    | refused | shutDown => exact List.append_nil _
    | posted f =>
      cases hcurrent : a.current <;>
        simp [Account.attachments, Account.note, StreamEvent.delivered?, hcurrent]
    | @delivered _ f _ hheld _ _ =>
      obtain ⟨t, ht⟩ := Option.isSome_iff_exists.1 (hsound.held.trans hheld)
      simp [Account.attachments, Account.note, StreamEvent.delivered?, ht]

end Stage

/-- The numbers of the frames that are received go up, so none is received twice. -/
theorem Account.Sound.deliveries_lt {a : Account} {s : Stage} (H : a.Sound s) :
    a.deliveries.Pairwise (· < ·) := by
  refine List.pairwise_flatMap.2 ⟨fun t _ => List.pairwise_lt_range', ?_⟩
  refine H.apart.imp_of_mem fun {t t'} ht ht' hle n hn n' hn' => ?_
  have hlength := (H.fair ht).received.length_le
  have hlast := (List.mem_range'_1.1 hn).2
  have hfirst := (List.mem_range'_1.1 hn').1
  omega

end PublishDesk
