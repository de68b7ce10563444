import Mathlib.Data.List.DropRight
import PublishDesk.Text.Blank

/-!
# Texts and the blanks at their ends

`trim` leaves a text as it is if and only if no blank stands at either end (`trim_eq_self_iff`), and
leaves nothing of a text if and only if the text holds nothing but blanks (`trim_eq_nil_iff`). A
blank at the end makes no difference to it (`trim_concat`).
-/

namespace PublishDesk.Text

variable {cs : List Char} {b : Char}

/-- Whether a text starts or ends with a blank. -/
def hasBlankEdge (cs : List Char) : Bool := cs.head?.any isBlank || cs.getLast?.any isBlank

theorem trimEnd_eq_rdropWhile (cs : List Char) : trimEnd cs = cs.rdropWhile isBlank := rfl

theorem trimStart_eq_self_iff : trimStart cs = cs ↔ cs.head?.any isBlank = false := by
  rw [trimStart, List.dropWhile_eq_self_iff]
  cases cs <;> simp

theorem trimEnd_eq_self_iff : trimEnd cs = cs ↔ cs.getLast?.any isBlank = false := by
  rw [trimEnd, List.reverse_eq_iff, trimStart_eq_self_iff, List.head?_reverse]

theorem trim_eq_self_iff : trim cs = cs ↔ hasBlankEdge cs = false := by
  rw [hasBlankEdge, Bool.or_eq_false_iff, ← trimStart_eq_self_iff, ← trimEnd_eq_self_iff, trim]
  constructor
  · intro h
    -- Neither end can lose anything, since nothing comes back.
    have hle := (List.rdropWhile_prefix isBlank (trimStart cs)).length_le
    rw [← trimEnd_eq_rdropWhile, h] at hle
    have hstart : trimStart cs = cs := (List.dropWhile_suffix isBlank).eq_of_length_le hle
    rw [hstart] at h
    exact ⟨hstart, h⟩
  · rintro ⟨hstart, hend⟩
    rw [hstart, hend]

theorem trim_eq_nil_iff : trim cs = [] ↔ isBlankText cs = true := by
  rw [trim, trimEnd_eq_rdropWhile, List.rdropWhile_eq_nil_iff, ← trimStart_eq_nil_iff,
    ← List.dropWhile_eq_nil_iff, trimStart, List.dropWhile_idempotent]

theorem trim_concat (hb : isBlank b = true) (cs : List Char) : trim (cs ++ [b]) = trim cs := by
  rw [trim, trim, trimStart, List.dropWhile_append]
  split
  · next hcs =>
    rw [trimStart, List.isEmpty_iff.1 hcs, List.dropWhile_cons_of_pos hb, List.dropWhile_nil]
  · exact List.rdropWhile_concat_pos isBlank _ b hb

end PublishDesk.Text
