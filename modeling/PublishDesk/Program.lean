/-!
# Programs

A program asks questions of its surroundings, one after the other, and goes on with the answers. The
questions are data, so one program can be answered by a repository in memory, by external commands
or by a scheduler that lets several programs take turns.
-/

namespace PublishDesk

/-- A program that asks questions of type `Q`, gets `A q` for a question `q`, and ends with a
result. -/
inductive Program (Q : Type) (A : Q → Type) (α : Type) where
  | done (result : α)
  | ask (question : Q) (next : A question → Program Q A α)

namespace Program

variable {P Q : Type} {A : Q → Type} {B : P → Type} {α β σ : Type}

/-- Go on with the result of a program. -/
def bind : Program Q A α → (α → Program Q A β) → Program Q A β
  | .done a, k => k a
  | .ask q next, k => .ask q fun a => (next a).bind k

def map (f : α → β) : Program Q A α → Program Q A β
  | .done a => .done (f a)
  | .ask q next => .ask q fun a => (next a).map f

instance : Monad (Program Q A) where
  pure := .done
  bind := bind

/-- Ask one question. -/
def question (q : Q) : Program Q A (A q) := .ask q .done

/-- Answer every question by a program over other questions. -/
def expand (f : (q : Q) → Program P B (A q)) : Program Q A α → Program P B α
  | .done a => .done a
  | .ask q next => (f q).bind fun a => (next a).expand f

/-- Answer every question from a state that the answers change. -/
def run (answer : (q : Q) → σ → A q × σ) : Program Q A α → σ → α × σ
  | .done a, s => (a, s)
  | .ask q next, s => (next (answer q s).1).run answer (answer q s).2

@[simp] theorem done_bind (a : α) (k : α → Program Q A β) : (done a).bind k = k a := rfl

@[simp] theorem bind_done (p : Program Q A α) : p.bind .done = p := by
  induction p with
  | done a => rfl
  | ask q next ih => simp [bind, ih]

theorem bind_assoc {γ : Type} (p : Program Q A α) (k : α → Program Q A β)
    (l : β → Program Q A γ) : (p.bind k).bind l = p.bind fun a => (k a).bind l := by
  induction p with
  | done a => rfl
  | ask q next ih => simp [bind, ih]

theorem expand_bind (f : (q : Q) → Program P B (A q)) (p : Program Q A α)
    (k : α → Program Q A β) :
    (p.bind k).expand f = (p.expand f).bind fun a => (k a).expand f := by
  induction p with
  | done a => rfl
  | ask q next ih => simp [bind, expand, ih, bind_assoc]

theorem run_bind (answer : (q : Q) → σ → A q × σ) (p : Program Q A α) (k : α → Program Q A β)
    (s : σ) :
    (p.bind k).run answer s = (k (p.run answer s).1).run answer (p.run answer s).2 := by
  induction p generalizing s with
  | done a => rfl
  | ask q next ih => simp [bind, run, ih]

end Program
end PublishDesk
