import Mathlib.Tactic.IntervalCases
import PublishDesk.Proofs.Json.Grammar

/-!
# Written values are read back

What `Value.render` writes is in the grammar (`Value.spells_render`), so the document of a written
value is the value itself (`Doc.read_render`). No character of it is a control
(`Value.not_lt_of_mem_render`). Numbers are left out: messages hold none.
-/

namespace PublishDesk.Json

theorem hexValue?_hexDigit {n : Nat} (h : n < 16) :
    Text.hexValue? (Text.hexDigit n) = some n := by
  interval_cases n <;> decide

theorem not_hexDigit_lt {n : Nat} (h : n < 16) : ¬ Text.hexDigit n < ' ' := by
  interval_cases n <;> decide

mutual

/-- Whether a value holds no number. -/
def Value.isPlain : Value → Bool
  | .null | .flag _ | .text _ => true
  | .number _ => false
  | .array items => areItemsPlain items
  | .object members => areMembersPlain members

def areItemsPlain : List Value → Bool
  | [] => true
  | v :: vs => v.isPlain && areItemsPlain vs

def areMembersPlain : List (List Char × Value) → Bool
  | [] => true
  | (_, v) :: ms => v.isPlain && areMembersPlain ms

end

/-! ## Reading back -/

theorem charSpells_escapeChar (c : Char) (rest : List Char) :
    CharSpells c (escapeChar c ++ rest) rest := by
  unfold escapeChar
  split
  case h_8 hquote hslash _ _ _ _ _ =>
    split
    · next h =>
      have hc : c.toNat < 32 := h
      have hzero : Text.hexValue? '0' = some 0 := by decide
      have hhigh := hexValue?_hexDigit (show c.toNat / 16 < 16 by omega)
      have hlow := hexValue?_hexDigit (show c.toNat % 16 < 16 by omega)
      have hn : ((0 * 16 + 0) * 16 + c.toNat / 16) * 16 + c.toNat % 16 = c.toNat := by omega
      have hcode := @CharSpells.code _ _ rest (.four hzero hzero hhigh hlow) (by omega)
      rwa [hn, Char.ofNat_toNat] at hcode
    · next h => exact .plain hquote hslash h
  all_goals exact .short rfl

theorem textSpells_render (t rest : List Char) :
    TextSpells t (t.flatMap escapeChar ++ '"' :: rest) rest := by
  induction t with
  | nil => exact .done
  | cons c t ih =>
    rw [List.flatMap_cons, List.append_assoc]
    exact .more (charSpells_escapeChar c _) ih

theorem renderText_append (t rest : List Char) :
    renderText t ++ rest = '"' :: (t.flatMap escapeChar ++ '"' :: rest) := by
  rw [renderText, List.cons_append, List.cons_append, List.append_assoc, List.singleton_append]

mutual

/-- A rendered value is written in the grammar. -/
theorem Value.spells_render {v : Value} (h : v.isPlain) (rest : List Char) :
    v.Spells (v.render ++ rest) rest := by
  match v with
  | .null => exact .null
  | .flag true => exact .yes
  | .flag false => exact .no
  | .text t =>
    rw [Value.render, renderText_append]
    exact .text (textSpells_render t rest)
  | .array [] => exact .array (.none .none)
  | .array (v :: vs) =>
    obtain ⟨hv, hvs⟩ := Bool.and_eq_true_iff.1 h
    rw [Value.render, List.append_assoc, List.cons_append]
    exact .array (itemsSpell_render hv hvs rest)
  | .object [] => exact .object (.none .none)
  | .object ((n, v) :: ms) =>
    obtain ⟨hv, hms⟩ := Bool.and_eq_true_iff.1 h
    rw [Value.render, List.append_assoc, List.cons_append]
    exact .object (membersSpell_render hv hms rest)
termination_by sizeOf v

theorem itemsSpell_render {v : Value} {vs : List Value} (hv : v.isPlain) (hvs : areItemsPlain vs)
    (rest : List Char) : ItemsSpell (v :: vs) (renderItems (v :: vs) ++ ']' :: rest) rest := by
  match vs with
  | [] => exact .some .none (Value.spells_render hv _) .none .closed
  | w :: ws =>
    obtain ⟨hw, hws⟩ := Bool.and_eq_true_iff.1 hvs
    rw [renderItems, List.append_assoc, List.cons_append]
    exact .some .none (Value.spells_render hv _) .none (.comma (itemsSpell_render hw hws rest))
termination_by sizeOf (v :: vs)

theorem membersSpell_render {n : List Char} {v : Value} {ms : List (List Char × Value)}
    (hv : v.isPlain) (hms : areMembersPlain ms) (rest : List Char) :
    MembersSpell ((n, v) :: ms) (renderMembers ((n, v) :: ms) ++ '}' :: rest) rest := by
  match ms with
  | [] =>
    rw [renderMembers, List.append_assoc, renderText_append, List.cons_append]
    exact .some .none (textSpells_render n _) .none .none (Value.spells_render hv _) .none .closed
  | (m, w) :: ms =>
    obtain ⟨hw, hms⟩ := Bool.and_eq_true_iff.1 hms
    rw [renderMembers, List.append_assoc, List.append_assoc, renderText_append, List.cons_append,
      List.cons_append]
    exact .some .none (textSpells_render n _) .none .none (Value.spells_render hv _) .none
      (.comma (membersSpell_render hw hms rest))
termination_by sizeOf ((n, v) :: ms)

end

theorem Value.isWritten_render {v : Value} (h : v.isPlain) : v.IsWritten v.render := by
  have hv := Value.spells_render h []
  rw [List.append_nil] at hv
  exact .intro .none hv .none

/-- A written value is read back. -/
theorem Doc.read_render {v : Value} (h : v.isPlain) : Doc.read v.render = (v.doc, []) :=
  (Value.isWritten_render h).read

/-! ## Controls -/

/-- Cases of a written character: it stands for itself, or an escape stands for it. -/
theorem escapeChar_cases (c : Char) :
    escapeChar c = [c] ∧ ¬ c < ' ' ∨ ∃ cs, escapeChar c = '\\' :: cs ∧ ∀ d ∈ cs, ¬ d < ' ' := by
  unfold escapeChar
  split
  case h_8 hquote hslash _ _ _ _ _ =>
    split
    · next h =>
      have hc : c.toNat < 32 := h
      refine .inr ⟨_, rfl, ?_⟩
      have hu : ¬ 'u' < ' ' ∧ ¬ '0' < ' ' := by decide
      simp only [List.forall_mem_cons, hu.1, hu.2, not_false_eq_true, true_and]
      exact ⟨not_hexDigit_lt (by omega), not_hexDigit_lt (by omega), nofun⟩
    · next h => exact .inl ⟨rfl, h⟩
  all_goals exact .inr ⟨_, rfl, by simp⟩

/-- A written text holds no control character. -/
theorem not_lt_of_mem_escapeChar {c d : Char} (h : d ∈ escapeChar c) : ¬ d < ' ' := by
  obtain ⟨hc, hspace⟩ | ⟨es, hc, hes⟩ := escapeChar_cases c
  · rw [hc, List.mem_singleton] at h
    exact h ▸ hspace
  · rw [hc, List.mem_cons] at h
    obtain rfl | h := h
    · decide
    · exact hes d h

theorem not_lt_of_mem_renderText {cs : List Char} {d : Char} (h : d ∈ renderText cs) :
    ¬ d < ' ' := by
  rw [renderText, List.cons_append, List.mem_cons, List.mem_append, List.mem_singleton,
    List.mem_flatMap] at h
  obtain rfl | ⟨c, -, hd⟩ | rfl := h
  · decide
  · exact not_lt_of_mem_escapeChar hd
  · decide

mutual

/-- A written value holds no control character. -/
theorem Value.not_lt_of_mem_render {v : Value} (h : v.isPlain) {d : Char} (hd : d ∈ v.render) :
    ¬ d < ' ' := by
  match v with
  | .null | .flag true | .flag false =>
    revert d
    simp [Value.render]
  | .text t => exact not_lt_of_mem_renderText hd
  | .array items =>
    rw [Value.render, List.cons_append, List.mem_cons, List.mem_append, List.mem_singleton] at hd
    obtain rfl | hd | rfl := hd
    · decide
    · exact not_lt_of_mem_renderItems h hd
    · decide
  | .object members =>
    rw [Value.render, List.cons_append, List.mem_cons, List.mem_append, List.mem_singleton] at hd
    obtain rfl | hd | rfl := hd
    · decide
    · exact not_lt_of_mem_renderMembers h hd
    · decide
termination_by sizeOf v

theorem not_lt_of_mem_renderItems {items : List Value} (h : areItemsPlain items) {d : Char}
    (hd : d ∈ renderItems items) : ¬ d < ' ' := by
  match items with
  | [] => exact absurd hd List.not_mem_nil
  | [v] => exact Value.not_lt_of_mem_render (Bool.and_eq_true_iff.1 h).1 hd
  | v :: w :: vs =>
    obtain ⟨hv, hvs⟩ := Bool.and_eq_true_iff.1 h
    rw [renderItems, List.mem_append, List.mem_cons] at hd
    obtain hd | rfl | hd := hd
    · exact Value.not_lt_of_mem_render hv hd
    · decide
    · exact not_lt_of_mem_renderItems hvs hd
termination_by sizeOf items

theorem not_lt_of_mem_renderMembers {members : List (List Char × Value)}
    (h : areMembersPlain members) {d : Char} (hd : d ∈ renderMembers members) : ¬ d < ' ' := by
  match members with
  | [] => exact absurd hd List.not_mem_nil
  | [(n, v)] =>
    rw [renderMembers, List.mem_append, List.mem_cons] at hd
    obtain hd | rfl | hd := hd
    · exact not_lt_of_mem_renderText hd
    · decide
    · exact Value.not_lt_of_mem_render (Bool.and_eq_true_iff.1 h).1 hd
  | (n, v) :: m :: ms =>
    obtain ⟨hv, hms⟩ := Bool.and_eq_true_iff.1 h
    rw [renderMembers, List.mem_append, List.mem_append, List.mem_cons, List.mem_cons] at hd
    obtain (hd | rfl | hd) | rfl | hd := hd
    · exact not_lt_of_mem_renderText hd
    · decide
    · exact Value.not_lt_of_mem_render hv hd
    · decide
    · exact not_lt_of_mem_renderMembers hms hd
termination_by sizeOf members

end

end PublishDesk.Json
