import PublishDesk.Program

/-!
# Transcripts of programs

A transcript lists the questions that a program asks and the answers that it gets, up to its end.
`Program.Transcript` says which transcripts a program has, whoever answers it: one answer of each
question may differ from the next. `Program.transcript` is the transcript of a run whose answers
come from a state, and `Program.transcript_run` says that it is one.
-/

namespace PublishDesk

/-- A question and its answer. -/
abbrev Exchange (Q : Type) (A : Q → Type) := (q : Q) × A q

namespace Program

variable {P Q : Type} {A : Q → Type} {B : P → Type} {α β σ : Type}

/-- Given the answers of the list, the program asks exactly the questions of the list, in order, and
ends with the result. -/
inductive Transcript : Program Q A α → List (Exchange Q A) → α → Prop
  | done {a : α} : Transcript (.done a) [] a
  | ask {q : Q} {next : A q → Program Q A α} {x : A q} {l : List (Exchange Q A)} {a : α} :
    Transcript (next x) l a → Transcript (.ask q next) (⟨q, x⟩ :: l) a

@[simp] theorem transcript_done_iff {a b : α} {l : List (Exchange Q A)} :
    Transcript (.done a) l b ↔ l = [] ∧ b = a := by
  constructor
  · rintro ⟨⟩
    exact ⟨rfl, rfl⟩
  · rintro ⟨rfl, rfl⟩
    exact .done

theorem transcript_ask_iff {q : Q} {next : A q → Program Q A α} {l : List (Exchange Q A)} {a : α} :
    Transcript (.ask q next) l a ↔ ∃ x l', l = ⟨q, x⟩ :: l' ∧ Transcript (next x) l' a := by
  constructor
  · rintro (_ | h)
    exact ⟨_, _, rfl, h⟩
  · rintro ⟨x, l', rfl, h⟩
    exact .ask h

theorem Transcript.bind {p : Program Q A α} {k : α → Program Q A β} {l l' : List (Exchange Q A)}
    {a : α} {b : β} (h : p.Transcript l a) (h' : (k a).Transcript l' b) :
    (p.bind k).Transcript (l ++ l') b := by
  induction h with
  | done => exact h'
  | ask _ ih => exact .ask (ih h')

/-- The transcript of a program that goes on with the result of another falls into the transcripts
of the two. -/
theorem transcript_bind_iff {p : Program Q A α} {k : α → Program Q A β}
    {l : List (Exchange Q A)} {b : β} :
    (p.bind k).Transcript l b ↔
      ∃ l₁ a l₂, l = l₁ ++ l₂ ∧ p.Transcript l₁ a ∧ (k a).Transcript l₂ b := by
  constructor
  · intro h
    induction p generalizing l with
    | done a => exact ⟨[], a, l, rfl, .done, h⟩
    | ask q next ih =>
      rw [Program.bind, transcript_ask_iff] at h
      obtain ⟨x, l', rfl, h⟩ := h
      obtain ⟨l₁, a, l₂, rfl, h₁, h₂⟩ := ih x h
      exact ⟨⟨q, x⟩ :: l₁, a, l₂, rfl, .ask h₁, h₂⟩
  · rintro ⟨l₁, a, l₂, rfl, h₁, h₂⟩
    exact h₁.bind h₂

/-- The questions that a run asks and the answers that it gets from a state. -/
def transcript (answer : (q : Q) → σ → A q × σ) : Program Q A α → σ → List (Exchange Q A)
  | .done _, _ => []
  | .ask q next, s => ⟨q, (answer q s).1⟩ :: (next (answer q s).1).transcript answer (answer q s).2

theorem transcript_run (answer : (q : Q) → σ → A q × σ) (p : Program Q A α) (s : σ) :
    p.Transcript (p.transcript answer s) (p.run answer s).1 := by
  induction p generalizing s with
  | done a => exact .done
  | ask q next ih => exact .ask (ih _ _)

/-! ## Programs made from others -/

theorem transcript_map_iff {p : Program Q A α} {f : α → β} {l : List (Exchange Q A)} {b : β} :
    (p.map f).Transcript l b ↔ ∃ a, b = f a ∧ p.Transcript l a := by
  constructor
  · intro h
    induction p generalizing l with
    | done a =>
      obtain ⟨rfl, rfl⟩ := transcript_done_iff.1 h
      exact ⟨a, rfl, .done⟩
    | ask q next ih =>
      rw [map, transcript_ask_iff] at h
      obtain ⟨x, l', rfl, h⟩ := h
      obtain ⟨a, rfl, hnext⟩ := ih x h
      exact ⟨a, rfl, .ask hnext⟩
  · rintro ⟨a, rfl, h⟩
    induction h with
    | done => exact .done
    | ask _ ih => exact .ask ih

/-- Where every question is passed on as another one, the transcripts stay the same but for the
questions. -/
theorem transcript_expand_question_iff {f : P → Q} {p : Program P (fun r => A (f r)) α}
    {l : List (Exchange Q A)} {a : α} :
    (p.expand fun r => question (f r)).Transcript l a ↔
      ∃ l', l = l'.map (fun e => ⟨f e.1, e.2⟩) ∧ p.Transcript l' a := by
  constructor
  · intro h
    induction p generalizing l with
    | done b =>
      obtain ⟨rfl, rfl⟩ := transcript_done_iff.1 h
      exact ⟨[], rfl, .done⟩
    | ask r next ih =>
      rw [expand, question, Program.bind, transcript_ask_iff] at h
      obtain ⟨x, l', rfl, h⟩ := h
      obtain ⟨l, rfl, hnext⟩ := ih x h
      exact ⟨⟨r, x⟩ :: l, rfl, .ask hnext⟩
  · rintro ⟨l', rfl, h⟩
    induction h with
    | done => exact .done
    | ask _ ih => exact .ask ih

/-! ## Parts of transcripts -/

/-- With the questions and answers of the list behind it, the program goes on with the other. -/
inductive Leads : Program Q A α → List (Exchange Q A) → Program Q A α → Prop
  | nil {p : Program Q A α} : Leads p [] p
  | ask {q : Q} {next : A q → Program Q A α} {x : A q} {l : List (Exchange Q A)}
    {p : Program Q A α} : Leads (next x) l p → Leads (.ask q next) (⟨q, x⟩ :: l) p

theorem Leads.snoc {p : Program Q A α} {l : List (Exchange Q A)} {q : Q}
    {next : A q → Program Q A α} (h : p.Leads l (.ask q next)) (x : A q) :
    p.Leads (l ++ [⟨q, x⟩]) (next x) := by
  generalize hp : Program.ask q next = p' at h
  induction h with
  | nil =>
    subst hp
    exact .ask .nil
  | ask _ ih => exact .ask (ih hp)

theorem Leads.transcript {p p' : Program Q A α} {l l' : List (Exchange Q A)} {a : α}
    (h : p.Leads l p') (h' : p'.Transcript l' a) : p.Transcript (l ++ l') a := by
  induction h with
  | nil => exact h'
  | ask _ ih => exact .ask (ih h')

/-- The transcript of a run in which each question has one answer. -/
def transcriptBy (answer : (q : Q) → A q) (p : Program Q A α) : List (Exchange Q A) :=
  p.transcript (fun q (u : Unit) => (answer q, u)) ()

/-- Where all answers so far are these, the run is one with these answers. -/
theorem Leads.transcriptBy {answer : (q : Q) → A q} {p p' : Program Q A α}
    {l : List (Exchange Q A)} (h : p.Leads l p') (hl : ∀ e ∈ l, e.2 = answer e.1) :
    p.transcriptBy answer = l ++ p'.transcriptBy answer := by
  induction h with
  | nil => rfl
  | @ask q next x l p _ ih =>
    obtain ⟨hx, hrest⟩ := List.forall_mem_cons.1 hl
    obtain rfl : x = answer q := hx
    exact congrArg _ (ih hrest)

theorem exists_transcript [∀ q, Nonempty (A q)] (p : Program Q A α) : ∃ l a, p.Transcript l a := by
  induction p with
  | done a => exact ⟨[], a, .done⟩
  | ask q next ih =>
    obtain ⟨x⟩ := (inferInstance : Nonempty (A q))
    obtain ⟨l, a, h⟩ := ih x
    exact ⟨_, a, .ask h⟩

end Program
end PublishDesk
