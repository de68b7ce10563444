import PublishDesk.Text.Hex

/-!
# Writing texts in TOML

A text is written in the first form that holds it without escapes; where none does, in a basic form
with escapes. What a form can hold is decided by what occurs in the text (`Traits`).
-/

namespace PublishDesk.Toml

/-- The forms of a written text: between double or single quotes, on one line or as a block. -/
inductive Form where
  | basic
  | literal
  | basicBlock
  | literalBlock
deriving DecidableEq, Repr

/-- The characters that never need a second thought. -/
def isPlain (c : Char) : Bool :=
  c.isAlphanum || c == '_' || c == '-' || c == '.' || c == '/' || c == ' ' || c == ':'

/-- A control other than tab and line feed. -/
def isControl (c : Char) : Bool := (c < ' ' && c != '\t' && c != '\n') || c == '\x7f'

/-- The length of the longest run of a character. -/
def longestRun (q : Char) (cs : List Char) : Nat := go 0 0 cs
where
  go (best run : Nat) : List Char → Nat
    | [] => max best run
    | c :: cs => if c = q then go best (run + 1) cs else go (max best run) 0 cs

/-- The form in which a text is written. -/
def formOf (cs : List Char) : Form :=
  let controls := cs.any isControl
  let newline := cs.contains '\n'
  let backslash := cs.contains '\\'
  if cs.all isPlain then .basic
  else if !controls && !backslash && !cs.contains '"' && !newline then .basic
  else if !controls && !cs.contains '\'' && !newline then .literal
  else if !controls && !backslash && longestRun '"' cs ≤ 2 then .basicBlock
  else if !controls && longestRun '\'' cs ≤ 2 then .literalBlock
  else if newline then .basicBlock
  else .basic

/-- The escape of a control, by name or by code point in upper-case digits. -/
def escapeControl (c : Char) : List Char :=
  match c with
  | '\x08' => ['\\', 'b']
  | '\t' => ['\\', 't']
  | '\n' => ['\\', 'n']
  | '\x0c' => ['\\', 'f']
  | '\r' => ['\\', 'r']
  | c => ['\\', 'u', '0', '0', (Text.hexDigit (c.toNat / 16)).toUpper,
      (Text.hexDigit (c.toNat % 16)).toUpper]

/-- The characters of a basic text of one line. -/
def escapeBasic (c : Char) : List Char :=
  if c = '"' then ['\\', '"']
  else if c = '\\' then ['\\', '\\']
  else if c < ' ' ∨ c = '\x7f' then escapeControl c
  else [c]

/-- The characters of a basic block. Of three quotes in a row the third is escaped; `quotes` counts
those right before, and an escape ends a row. -/
def escapeBlock (quotes : Nat) : List Char → List Char
  | [] => []
  | c :: cs =>
    if c = '"' then
      if quotes = 2 then '\\' :: '"' :: escapeBlock 0 cs else '"' :: escapeBlock (quotes + 1) cs
    else if c = '\n' then '\n' :: escapeBlock 0 cs
    else escapeBasic c ++ escapeBlock 0 cs

/-- A block that spans lines starts on a line of its own. -/
def firstBreak (cs : List Char) : List Char := if cs.contains '\n' then ['\n'] else []

/-- A written text. -/
def quote (cs : List Char) : List Char :=
  match formOf cs with
  | .basic => '"' :: cs.flatMap escapeBasic ++ ['"']
  | .literal => '\'' :: cs ++ ['\'']
  | .basicBlock => "\"\"\"".toList ++ firstBreak cs ++ escapeBlock 0 cs ++ "\"\"\"".toList
  | .literalBlock => "'''".toList ++ firstBreak cs ++ cs ++ "'''".toList

end PublishDesk.Toml
