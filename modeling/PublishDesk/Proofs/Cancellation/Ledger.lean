import PublishDesk.Proofs.Cancellation.History

/-!
# What is owed

A call that has begun has to return, and an observer that is due has to start and to end. With what
has happened so far, the acts that are owed make up a ledger (`Moment.ledger`). Getting on with what
is owed leaves the ledger as it is, and an operation enters a call into it (`Entry`); a step does
nothing else to it (`Moment.effect_step`).
-/

namespace PublishDesk.Cancellation

/-- The two acts of an observer that runs. -/
def life (f k : Nat) : List Act := [.starts k f, .ends k f]

/-- The acts that a task is sure to bring, apart from those of the operations in it. -/
def Task.owed : Task → List Act
  | .perform _ => []
  | .run k f _ => life f k
  | .finish k f => [.ends k f]
  | .leave k f => [.leaves k f]
  | .answer k f n b => [.answers k f b, .shows (.noted n b)]

/-- What is told by an act that has a result. -/
def Act.result : Act → Option Bool
  | .looks _ b | .answers _ _ b => some b
  | _ => none

/-- Every result is shown as soon as it is there. -/
def Told (h : List Act) : Prop :=
  ∀ i a b, h[i]? = some a → a.result = some b → ∃ n, h[i + 1]? = some (.shows (.noted n b))

theorem told_nil : Told [] := fun i a b ha _ => by cases ha

theorem told_of_result {a : Act} (h : a.result = none) : Told [a] := by
  intro i a' b ha hb
  obtain ⟨_, rfl⟩ := List.getElem?_eq_some_iff.1 ha
  rw [List.getElem_singleton, h] at hb
  cases hb

theorem told_pair {a : Act} {b : Bool} (h : a.result = some b) (n : String) :
    Told [a, .shows (.noted n b)] := by
  intro i a' b' ha hb
  match i with
  | 0 =>
    obtain rfl := Option.some.inj ha
    obtain rfl := Option.some.inj (h.symm.trans hb)
    exact ⟨n, rfl⟩
  | 1 =>
    obtain rfl := Option.some.inj ha
    cases hb
  | i + 2 => cases ha

theorem Told.append {h l : List Act} (hh : Told h) (hl : Told l) : Told (h ++ l) := by
  intro i a b ha hb
  rcases Nat.lt_or_ge i h.length with hi | hi
  · rw [List.getElem?_append_left hi] at ha
    obtain ⟨n, hn⟩ := hh i a b ha hb
    obtain ⟨hlt, _⟩ := List.getElem?_eq_some_iff.1 hn
    exact ⟨n, (List.getElem?_append_left hlt).trans hn⟩
  · rw [List.getElem?_append_right hi] at ha
    obtain ⟨n, hn⟩ := hl _ a b ha hb
    refine ⟨n, ?_⟩
    rw [List.getElem?_append_right (Nat.le_succ_of_le hi), Nat.succ_sub hi]
    exact hn

/-- Whether an act is a call that somebody has to return from. -/
def Act.isCall : Act → Bool
  | .cancels _ | .observes _ => true
  | _ => false

namespace Moment

/-- The acts that are owed. -/
def rest (m : Moment) : List Act := m.tasks.flatMap Task.owed

def ledger (m : Moment) : List Act := m.past ++ m.rest

variable {m m' : Moment}

/-- A call as it is entered: what happens at once, what is owed for it, and the families then. -/
inductive Entry (here : Nat) (families : List Waiting) : List Act → List Act → List Waiting → Prop
  | shows (e : Event) : Entry here families [.shows e] [] families
  | looks {f : Nat} {w : Waiting} (hf : families[f]? = some w) (n : String) :
    Entry here families [.looks f w.isNone, .shows (.noted n w.isNone)] [] families
  /-- A call to cancel comes too late. -/
  | refuse {f : Nat} (hf : families[f]? = some none) (n : String) :
    Entry here families [.cancels f] [.answers here f false, .shows (.noted n false)] families
  /-- A call to cancel makes the observers due that wait. -/
  | fire {f : Nat} {obs : List (Nat × List Operation)} (hf : families[f]? = some (some obs))
    (n : String) :
    Entry here families [.cancels f] ((obs.map Prod.fst).flatMap (life f) ++
      [.answers here f true, .shows (.noted n true)]) (families.set f none)
  /-- An observer is put with those that wait. -/
  | wait {f : Nat} {obs : List (Nat × List Operation)} (hf : families[f]? = some (some obs))
    (body : List Operation) : Entry here families [.observes f, .leaves here f] []
      (families.set f (some (obs ++ [(here, body)])))
  /-- An observer comes too late to wait, and the call returns when it has run. -/
  | late {f : Nat} (hf : families[f]? = some none) :
    Entry here families [.observes f] (life f here ++ [.leaves here f]) families

/-- What a step can do to the past, the families and what is owed. -/
inductive Effect (m m' : Moment) : Prop
  | advance {new : List Act} (htold : Told new) (hpast : m'.past = m.past ++ new)
    (hrest : m.rest = new ++ m'.rest) (hfamilies : m'.families = m.families)
  | create (hpast : m'.past = m.past) (hrest : m'.rest = m.rest)
    (hfamilies : m'.families = m.families ++ [some []])
  | enter {new owed : List Act}
    (hentry : Entry m.past.length m.families new owed m'.families)
    (hpast : m'.past = m.past ++ new) (hrest : m'.rest = owed ++ m.rest)

theorem Effect.stay (hpast : m'.past = m.past) (hrest : m'.rest = m.rest)
    (hfamilies : m'.families = m.families) : Effect m m' :=
  .advance told_nil (hpast.trans (List.append_nil _).symm) hrest.symm hfamilies

theorem owed_perform (body : List Operation) :
    (body.map Task.perform).flatMap Task.owed = [] := by
  rw [List.flatMap_map]
  exact List.flatMap_eq_nil_iff.2 fun _ _ => rfl

theorem owed_run (f : Nat) (obs : List (Nat × List Operation)) :
    (obs.map fun o => Task.run o.1 f o.2).flatMap Task.owed =
      (obs.map Prod.fst).flatMap (life f) := by
  rw [List.flatMap_map, List.flatMap_map]
  rfl

theorem rest_prepare (ts : List Task) (m : Moment) :
    (m.prepare ts).rest = ts.flatMap Task.owed ++ m.rest := List.flatMap_append

theorem effect_perform (o : Operation) (m : Moment) : Effect m (m.perform o) := by
  cases o with
  | create => exact .create rfl rfl rfl
  | copy t => exact .stay rfl rfl rfl
  | mark n => exact .enter (.shows _) rfl rfl
  | answer n b => exact .enter (.shows _) rfl rfl
  | check t n =>
    simp only [perform]
    split
    · exact .enter (.shows _) rfl rfl
    · next w hf => exact .enter (.looks hf n) rfl rfl
  | observe t body =>
    simp only [perform]
    split
    · refine .stay rfl ?_ rfl
      rw [rest_prepare, owed_perform, List.nil_append]
    · next hf => exact .enter (.late hf) rfl (rest_prepare _ _)
    · next obs hf => exact .enter (.wait hf body) rfl rfl
  | cancel t n =>
    simp only [perform]
    split
    · exact .enter (.shows _) rfl rfl
    · next hf => exact .enter (.refuse hf n) rfl (rest_prepare _ _)
    · next obs hf =>
      refine .enter (.fire hf n) rfl ?_
      rw [rest_prepare, List.flatMap_append, owed_run]
      rfl

theorem rest_of_cons {t : Task} {ts : List Task} (ht : m.tasks = t :: ts) :
    m.rest = t.owed ++ rest { m with tasks := ts } := by
  rw [rest, ht, List.flatMap_cons]
  rfl

theorem effect_step (m : Moment) : Effect m m.step := by
  rw [step]
  split
  · exact .stay rfl rfl rfl
  · next t ts ht =>
    have hrest := rest_of_cons ht
    cases t with
    | perform o =>
      cases effect_perform o { m with tasks := ts } with
      | advance htold hpast hrest' hfamilies =>
        exact .advance htold hpast (hrest.trans hrest') hfamilies
      | create hpast hrest' hfamilies => exact .create hpast (hrest'.trans hrest.symm) hfamilies
      | enter hentry hpast hrest' =>
        exact .enter hentry hpast (hrest'.trans (congrArg _ hrest.symm))
    | run k f body =>
      refine .advance (told_of_result (a := .starts k f) rfl) rfl (hrest.trans ?_) rfl
      rw [work, rest_prepare, List.flatMap_append, owed_perform]
      rfl
    | finish k f => exact .advance (told_of_result rfl) rfl hrest rfl
    | leave k f => exact .advance (told_of_result rfl) rfl hrest rfl
    | answer k f n b => exact .advance (told_pair rfl n) rfl hrest rfl

end Moment
end PublishDesk.Cancellation
