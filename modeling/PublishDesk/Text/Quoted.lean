import PublishDesk.Text.Hex
import PublishDesk.Text.Printable

/-!
# Quoted text in messages

A text that a message quotes stands between double quotes. The quote and the backslash are
escaped, the common controls have a short escape, and every other character that is not printable
is written by its code point in lower-case hexadecimal digits.
-/

namespace PublishDesk.Text

/-- One character of a quoted text. -/
def quoteChar (c : Char) : List Char :=
  match c with
  | '"' => ['\\', '"']
  | '\\' => ['\\', '\\']
  | '\n' => ['\\', 'n']
  | '\r' => ['\\', 'r']
  | '\t' => ['\\', 't']
  | '\x00' => ['\\', '0']
  | c => if isPrintable c then [c] else ['\\', 'u', '\x7b'] ++ hexDigits c.toNat ++ ['\x7d']

/-- A text between double quotes, as a message shows it. -/
def quoted (cs : List Char) : List Char := ['"'] ++ cs.flatMap quoteChar ++ ['"']

end PublishDesk.Text
