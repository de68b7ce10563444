/-!
# Blank characters

The blanks are the characters of the Unicode property `White_Space`. `trim` takes the blanks off
both ends of a text; what remains starts and ends with a character that is not blank.
-/

namespace PublishDesk.Text

/-- The characters of the Unicode property `White_Space`. -/
def isBlank (c : Char) : Bool :=
  let n := c.toNat
  (0x09 ≤ n && n ≤ 0x0d) || n == 0x20 || n == 0x85 || n == 0xa0 || n == 0x1680 ||
    (0x2000 ≤ n && n ≤ 0x200a) || n == 0x2028 || n == 0x2029 || n == 0x202f || n == 0x205f ||
    n == 0x3000

/-- The text without its leading blanks. -/
def trimStart (cs : List Char) : List Char := cs.dropWhile isBlank

/-- The text without its trailing blanks. -/
def trimEnd (cs : List Char) : List Char := (trimStart cs.reverse).reverse

/-- The text without the blanks at both ends. -/
def trim (cs : List Char) : List Char := trimEnd (trimStart cs)

/-- A text is blank when it holds no other characters than blanks. -/
def isBlankText (cs : List Char) : Bool := cs.all isBlank

theorem trimStart_eq_nil_iff {cs : List Char} : trimStart cs = [] ↔ isBlankText cs = true := by
  induction cs with
  | nil => simp [trimStart, isBlankText]
  | cons c cs ih =>
    simp only [trimStart, isBlankText, List.dropWhile_cons, List.all_cons, Bool.and_eq_true] at ih ⊢
    split <;> simp_all

end PublishDesk.Text
