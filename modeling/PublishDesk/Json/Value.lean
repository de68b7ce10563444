import PublishDesk.Decimal.Shortest
import PublishDesk.Json.Number
import PublishDesk.Text.Hex

/-!
# Values of JSON and their text

`Value.render` writes a value without white space, members in the order given. In a text only the
quote, the backslash and the controls below U+0020 are escaped, so a rendered value holds no
control character.
-/

namespace PublishDesk.Json
open Decimal

inductive Value where
  | null
  | flag (value : Bool)
  | number (value : Number)
  | text (value : List Char)
  | array (items : List Value)
  | object (members : List (List Char × Value))

/-- One character of a written text. -/
def escapeChar (c : Char) : List Char :=
  match c with
  | '"' => ['\\', '"']
  | '\\' => ['\\', '\\']
  | '\x08' => ['\\', 'b']
  | '\x0c' => ['\\', 'f']
  | '\n' => ['\\', 'n']
  | '\r' => ['\\', 'r']
  | '\t' => ['\\', 't']
  | c =>
    if c < ' ' then
      ['\\', 'u', '0', '0', Text.hexDigit (c.toNat / 16), Text.hexDigit (c.toNat % 16)]
    else [c]

/-- A written text, with its quotes. -/
def renderText (cs : List Char) : List Char := '"' :: cs.flatMap escapeChar ++ ['"']

def Number.render : Number → List Char
  | .integer i => (toString i).toList
  | .floating x => x.text mixedLayout

mutual

def Value.render : Value → List Char
  | .null => ['n', 'u', 'l', 'l']
  | .flag true => ['t', 'r', 'u', 'e']
  | .flag false => ['f', 'a', 'l', 's', 'e']
  | .number n => n.render
  | .text t => renderText t
  | .array items => '[' :: renderItems items ++ [']']
  | .object members => '{' :: renderMembers members ++ ['}']

def renderItems : List Value → List Char
  | [] => []
  | [v] => v.render
  | v :: w :: vs => v.render ++ ',' :: renderItems (w :: vs)

def renderMembers : List (List Char × Value) → List Char
  | [] => []
  | [(n, v)] => renderText n ++ ':' :: v.render
  | (n, v) :: m :: ms => renderText n ++ ':' :: v.render ++ ',' :: renderMembers (m :: ms)

end

end PublishDesk.Json
