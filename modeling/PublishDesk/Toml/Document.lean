import PublishDesk.Toml.Table
import PublishDesk.Toml.Token

/-!
# Documents of TOML

`Document.read?` reads a text as a table. The reader takes one token at a time (`State.step`) and
refuses the text at the first token that does not fit, so that a text is read to its end or not at
all.
-/

namespace PublishDesk.Toml

/-- Where a value goes: to the key of a line, into an array, or to a key of an inline table. What
precedes it in an array is held with the latest first. -/
inductive Hole where
  | line (path : List Key)
  | item (done : List Value) (outer : Hole)
  | member (done : Entries) (path : List Key) (outer : Hole)

/-- The number of arrays and inline tables that are open. -/
def Hole.depth : Hole → Nat
  | .line _ => 0
  | .item _ outer => outer.depth + 1
  | .member _ _ outer => outer.depth + 1

/-- Arrays and inline tables may be nested this deep, and a key may have this many parts. -/
def maxDepth : Nat := 80

/-- What a key is for: a header in single or double brackets, a line, or an inline table. -/
inductive Purpose where
  | table
  | tables
  | line
  | member (done : Entries) (outer : Hole)

/-- What may come next. -/
inductive Position where
  /-- A key, a header, or nothing on this line. -/
  | lineStart
  /-- A second bracket or the first key of a header. -/
  | headerStart
  /-- One more part of a key. -/
  | key (purpose : Purpose) (path : List Key)
  /-- A dot, or what ends the key. -/
  | afterKey (purpose : Purpose) (path : List Key)
  /-- The equals sign of an inline table, on a later line than the key. -/
  | equalsSign (hole : Hole)
  /-- The second closing bracket of a header. -/
  | headerEnd (path : List Key)
  | value (hole : Hole)
  /-- More of a value without quotes. -/
  | bare (hole : Hole) (text : List Char)
  /-- The time after a date and a space, or what follows the date. -/
  | afterDate (hole : Hole) (text : List Char)
  /-- An item of an array, or its end. -/
  | item (done : List Value) (outer : Hole)
  | afterItem (done : List Value) (outer : Hole)
  /-- A key of an inline table, or its end. -/
  | member (done : Entries) (outer : Hole)
  | afterMember (done : Entries) (outer : Hole)
  /-- Nothing more on this line. -/
  | lineEnd

/-- The tables read so far, the header that lines belong to, and what may come next. -/
structure State where
  root : Entries
  header : List Key
  position : Position

namespace State

def start : State := ⟨[], [], .lineStart⟩

def goto (s : State) (p : Position) : State := { s with position := p }

/-- Put a complete value in its place. -/
def fill (s : State) (v : Value) : Hole → Option State
  | .line path =>
    (s.root.alter (Entries.insert v path) s.header).map fun root =>
      { s with root, position := .lineEnd }
  | .item done outer => some (s.goto (.afterItem (v :: done) outer))
  | .member done path outer =>
    (done.insert v path).map fun done => s.goto (.afterMember done outer)

/-- Take a header: open its table, which the next lines belong to. -/
def enter (s : State) (opening : Key → Entries → Option Entries) (path : List Key) :
    Option State := do
  let k ← path.getLast?
  let root ← s.root.alter (opening k) path.dropLast
  return ⟨root, path, .lineEnd⟩

/-- The characters of a key without quotes. -/
def isKeyChar (c : Char) : Bool := c.isAlphanum || c == '_' || c == '-'

/-- The key that a token writes. -/
def key? : Token → Option Key
  | .bare cs => if cs.all isKeyChar then some cs else none
  | .quoted cs => some cs
  | _ => none

/-- A token where a value is due. -/
def take (s : State) (hole : Hole) : Token → Option State
  | .quoted cs | .block cs => s.fill (.text cs) hole
  | .bare cs => some (s.goto (.bare hole cs))
  | .openBracket => if hole.depth < maxDepth then some (s.goto (.item [] hole)) else none
  | .openBrace => if hole.depth < maxDepth then some (s.goto (.member [] hole)) else none
  | _ => none

/-- Take a token where no value without quotes is being read. -/
def step (s : State) (t : Token) : Option State :=
  match s.position, t with
  | .lineStart, .blank _ | .lineStart, .newline => some s
  | .lineStart, .openBracket => some (s.goto .headerStart)
  | .lineStart, t => (key? t).map fun k => s.goto (.afterKey .line [k])
  | .headerStart, .openBracket => some (s.goto (.key .tables []))
  | .headerStart, .blank _ => some (s.goto (.key .table []))
  | .headerStart, t => (key? t).map fun k => s.goto (.afterKey .table [k])
  | .key _ _, .blank _ => some s
  | .key p path, t =>
    if path.length < maxDepth then (key? t).map fun k => s.goto (.afterKey p (path ++ [k]))
    else none
  | .afterKey _ _, .blank _ => some s
  | .afterKey p path, .dot => some (s.goto (.key p path))
  | .afterKey .line path, .equals => some (s.goto (.value (.line path)))
  | .afterKey (.member done outer) path, .equals => some (s.goto (.value (.member done path outer)))
  | .afterKey (.member done outer) path, .newline =>
    some (s.goto (.equalsSign (.member done path outer)))
  | .equalsSign _, .blank _ | .equalsSign _, .newline => some s
  | .equalsSign hole, .equals => some (s.goto (.value hole))
  | .afterKey .table path, .closeBracket => s.enter Entries.openTable path
  | .afterKey .tables path, .closeBracket => some (s.goto (.headerEnd path))
  | .headerEnd path, .closeBracket => s.enter Entries.openNext path
  | .value _, .blank _ | .value (.member _ _ _), .newline => some s
  | .value hole, t => s.take hole t
  | .item _ _, .blank _ | .item _ _, .newline => some s
  | .item done outer, .closeBracket => s.fill (.array done.reverse) outer
  | .item done outer, t => s.take (.item done outer) t
  | .afterItem _ _, .blank _ | .afterItem _ _, .newline => some s
  | .afterItem done outer, .comma => some (s.goto (.item done outer))
  | .afterItem done outer, .closeBracket => s.fill (.array done.reverse) outer
  | .member _ _, .blank _ | .member _ _, .newline => some s
  | .member done outer, .closeBrace => s.fill done.toValue outer
  | .member done outer, t => (key? t).map fun k => s.goto (.afterKey (.member done outer) [k])
  | .afterMember _ _, .blank _ | .afterMember _ _, .newline => some s
  | .afterMember done outer, .comma => some (s.goto (.member done outer))
  | .afterMember done outer, .closeBrace => s.fill done.toValue outer
  | .lineEnd, .blank _ => some s
  | .lineEnd, .newline => some (s.goto .lineStart)
  | _, _ => none

/-- The state after a value without quotes has ended. -/
def settle (s : State) : Option State :=
  match s.position with
  | .bare hole cs | .afterDate hole cs => (Value.ofBare? cs).bind fun v => s.fill v hole
  | _ => some s

/-- Take a token. A value without quotes goes on as long as tokens that may belong to it follow;
one space is part of it between a date and a time. -/
def next (s : State) (t : Token) : Option State :=
  match s.position, t with
  | .bare hole cs, .bare ds => some (s.goto (.bare hole (cs ++ ds)))
  | .bare hole cs, .dot => some (s.goto (.bare hole (cs ++ ['.'])))
  | .bare hole cs, .blank true =>
    if Moment.isDate cs then some (s.goto (.afterDate hole cs))
    else s.settle.bind (·.step t)
  | .afterDate hole cs, .bare ds => some (s.goto (.bare hole (cs ++ ' ' :: ds)))
  | _, _ => s.settle.bind (·.step t)

/-- Take all tokens. -/
def run (s : State) : List Token → Option State
  | [] => some s
  | t :: ts => (s.next t).bind (·.run ts)

/-- The table of a text that ends here. -/
def finish? (s : State) : Option Value :=
  s.settle.bind fun s =>
    match s.position with
    | .lineStart | .lineEnd => some s.root.toValue
    | _ => none

end State

/-- The table that a text writes. A byte order mark at the start is skipped. -/
def Document.read? (cs : List Char) : Option Value := do
  let cs := match cs with
    | '\ufeff' :: cs => cs
    | cs => cs
  let s ← State.start.run (← tokens? cs)
  s.finish?

end PublishDesk.Toml
