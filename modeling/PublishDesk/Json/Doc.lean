import PublishDesk.Json.Token

/-!
# Documents of JSON

A text is read from left to right, and a reader may lose interest in it at any point. `Doc` is
what such readers see: the value that a text spells, or its beginning, up to the point where the
text stops being JSON. Every text has a document (`Doc.read`). It is built by a machine that takes
one token at a time (`Position.step`) and is cut where a token does not fit (`Position.cut`).
-/

namespace PublishDesk.Json

mutual

inductive Doc where
  | word (value : Except Fault Word)
  | number (value : Reading Number)
  | text (value : Reading (List Char))
  | array (items : Items)
  | object (members : Members)
  /-- No value starts here. -/
  | broken (fault : Fault)

/-- The items of an array. The list is broken where neither a comma nor the closing bracket
follows an item. -/
inductive Items where
  | closed
  | broken (fault : Fault)
  | cons (item : Doc) (rest : Items)

/-- The members of an object. The list is broken where neither a comma nor the closing brace
follows a member, and nameless where something else than a name stands in the place of one. -/
inductive Members where
  | closed
  | broken (fault : Fault)
  | nameless (found : Doc)
  | cons (name : Reading (List Char)) (value : Doc) (rest : Members)

end

/-- The documents in front of the rest of a list of items. -/
def Items.prepend : List Doc → Items → Items
  | [], rest => rest
  | d :: ds, rest => .cons d (prepend ds rest)

/-- A member of an object: its name and its value. -/
abbrev Member := Reading (List Char) × Doc

/-- The members in front of the rest of a list of members. -/
def Members.prepend : List Member → Members → Members
  | [], rest => rest
  | m :: ms, rest => .cons m.1 m.2 (prepend ms rest)

/-- Where in the document the next value goes. What precedes it in an open array or object is held
with the latest first. -/
inductive Hole where
  | root
  | item (done : List Doc) (outer : Hole)
  | member (done : List Member) (name : Reading (List Char)) (outer : Hole)

/-- What may come next. -/
inductive Position where
  /-- A value. -/
  | value (hole : Hole)
  /-- The first item of an array or its end. -/
  | firstItem (outer : Hole)
  /-- A comma or the end of the array. -/
  | afterItem (done : List Doc) (outer : Hole)
  /-- The name of a member, or the end of an object that has none yet (`first`). -/
  | memberName (first : Bool) (done : List Member) (outer : Hole)
  /-- The colon after a name. -/
  | nameColon (done : List Member) (name : Reading (List Char)) (outer : Hole)
  /-- A comma or the end of the object. -/
  | afterMember (done : List Member) (outer : Hole)
  /-- Nothing: the document is complete. -/
  | complete (doc : Doc)

/-- Put a complete value in its place. -/
def Hole.fill : Hole → Doc → Position
  | .root, d => .complete d
  | .item done outer, d => .afterItem (d :: done) outer
  | .member done name outer, d => .afterMember ((name, d) :: done) outer

/-- The document that ends with the value `d` in this place, all around it left open. -/
def Hole.plug : Hole → Doc → Doc
  | .root, d => d
  | .item done outer, d => outer.plug (.array (.prepend done.reverse (.cons d .closed)))
  | .member done name outer, d =>
    outer.plug (.object (.prepend done.reverse (.cons name d .closed)))

/-- The document of a text that cannot go on from here. -/
def Position.cut (f : Fault) : Position → Doc
  | .value hole => hole.plug (.broken f)
  | .firstItem outer => outer.plug (.array (.broken f))
  | .afterItem done outer => outer.plug (.array (.prepend done.reverse (.broken f)))
  | .memberName _ done outer =>
    outer.plug (.object (.prepend done.reverse (.nameless (.broken f))))
  | .nameColon done name outer =>
    outer.plug (.object (.prepend done.reverse (.cons name (.broken f) .closed)))
  | .afterMember done outer => outer.plug (.object (.prepend done.reverse (.broken f)))
  | .complete d => d

/-- The beginning of a value that a token shows. -/
def Token.start : Token → Doc
  | .word w => .word w
  | .number n => .number n
  | .text t => .text t
  | .openArray => .array .closed
  | .openObject => .object .closed
  | _ => .broken .malformed

/-- A token where a value is due. -/
def Hole.take (hole : Hole) : Token → Except Doc Position
  | .word w => .ok (hole.fill (.word w))
  | .number n => .ok (hole.fill (.number n))
  | .text t => .ok (hole.fill (.text t))
  | .openArray => .ok (.firstItem hole)
  | .openObject => .ok (.memberName true [] hole)
  | _ => .error (hole.plug (.broken .malformed))

/-- Take one token; the answer is the document cut off there if the token does not fit. -/
def Position.step : Position → Token → Except Doc Position
  | .value hole, t => hole.take t
  | .firstItem outer, .closeArray => .ok (outer.fill (.array .closed))
  | .firstItem outer, t => Hole.take (.item [] outer) t
  | .afterItem done outer, .comma => .ok (.value (.item done outer))
  | .afterItem done outer, .closeArray =>
    .ok (outer.fill (.array (.prepend done.reverse .closed)))
  | .memberName _ done outer, .text t => .ok (.nameColon done t outer)
  | .memberName true _ outer, .closeObject => .ok (outer.fill (.object .closed))
  | .memberName _ done outer, t =>
    .error (outer.plug (.object (.prepend done.reverse (.nameless t.start))))
  | .nameColon done name outer, .colon => .ok (.value (.member done name outer))
  | .afterMember done outer, .comma => .ok (.memberName false done outer)
  | .afterMember done outer, .closeObject =>
    .ok (outer.fill (.object (.prepend done.reverse .closed)))
  | .complete d, _ => .ok (.complete d)
  | p, _ => .error (p.cut .malformed)

/-- Take tokens until the document is complete or cut off; the rest of the tokens is returned with
it. -/
def Position.run : Position → List Token → Doc × List Token
  | .complete d, ts => (d, ts)
  | p, [] => (p.cut .truncated, [])
  | p, t :: ts =>
    match p.step t with
    | .ok q => q.run ts
    | .error d => (d, [])
termination_by structural _ ts => ts

/-- The document of a text, and the tokens that follow it. -/
def Doc.read (cs : List Char) : Doc × List Token := Position.run (.value .root) (tokens cs)

/-! ## Readers that do not look for anything -/

/-- The fault where something else than a name stands in the place of one. -/
def Doc.namelessFault : Doc → Fault
  | .broken f => f
  | _ => .malformed

mutual

/-- Skip a value. -/
def Doc.skip : Doc → Except Fault Unit
  | .word w => w.map fun _ => ()
  | .number n => n.skipped
  | .text t => t.skipped
  | .array items => items.skip
  | .object members => members.skip
  | .broken f => .error f

def Items.skip : Items → Except Fault Unit
  | .closed => .ok ()
  | .broken f => .error f
  | .cons item rest => do item.skip; rest.skip

def Members.skip : Members → Except Fault Unit
  | .closed => .ok ()
  | .broken f => .error f
  | .nameless found => .error found.namelessFault
  | .cons name value rest => do name.skipped; value.skip; rest.skip

end

mutual

/-- Keep a value for later, so that every part of it has to be good. Arrays and objects may be
nested `depth` deep. -/
def Doc.keep (depth : Nat) : Doc → Except Fault Unit
  | .word w => w.map fun _ => ()
  | .number n => n.kept.map fun _ => ()
  | .text t => t.kept.map fun _ => ()
  | .array items => match depth with
    | 0 => .error .malformed
    | depth + 1 => items.keep depth
  | .object members => match depth with
    | 0 => .error .malformed
    | depth + 1 => members.keep depth
  | .broken f => .error f

def Items.keep (depth : Nat) : Items → Except Fault Unit
  | .closed => .ok ()
  | .broken f => .error f
  | .cons item rest => do item.keep depth; rest.keep depth

def Members.keep (depth : Nat) : Members → Except Fault Unit
  | .closed => .ok ()
  | .broken f => .error f
  | .nameless found => .error found.namelessFault
  | .cons name value rest => do
    let _ ← name.kept
    value.keep depth
    rest.keep depth

end

end PublishDesk.Json
