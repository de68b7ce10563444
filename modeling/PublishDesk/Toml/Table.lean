import PublishDesk.Toml.Value

/-!
# Tables while a document is read

A table can be written in several pieces, and how it came into being decides what may still be
added to it. A header names its table once. Tables on the way to it are implied and may get a
header of their own later. Dotted keys make tables that only dotted keys under the same header
extend. A value, inline tables and arrays included, is complete as it stands.
-/

namespace PublishDesk.Toml

/-- How a table came into being. -/
inductive Origin where
  | implied
  | dotted
  | header
deriving DecidableEq, Repr

inductive Node where
  | value (value : Value)
  | table (origin : Origin) (entries : List (Key × Node))
  /-- Tables with a header in double brackets: the last one, and those before it. -/
  | tables (last : List (Key × Node)) (before : List (List (Key × Node)))

/-- The entries of a table that is still open. -/
abbrev Entries := List (Key × Node)

namespace Entries

def find? (k : Key) (t : Entries) : Option Node := t.lookup k

/-- Put a node in the place of the one with the same key, or at the end. -/
def put (k : Key) (n : Node) : Entries → Entries
  | [] => [(k, n)]
  | (k', n') :: t => if k' = k then (k, n) :: t else (k', n') :: put k n t

/-- Change the table that a path of header keys leads to. Missing tables are implied. -/
def alter (f : Entries → Option Entries) : List Key → Entries → Option Entries
  | [], t => f t
  | k :: ks, t =>
    match t.find? k with
    | none => (alter f ks []).map fun s => t.put k (.table .implied s)
    | some (.table o s) => (alter f ks s).map fun s => t.put k (.table o s)
    | some (.tables last before) => (alter f ks last).map fun s => t.put k (.tables s before)
    | some (.value _) => none

/-- Open the table of a header. -/
def openTable (k : Key) (t : Entries) : Option Entries :=
  match t.find? k with
  | none => some (t.put k (.table .header []))
  | some (.table .implied s) => some (t.put k (.table .header s))
  | _ => none

/-- Open one more table of a header in double brackets. -/
def openNext (k : Key) (t : Entries) : Option Entries :=
  match t.find? k with
  | none => some (t.put k (.tables [] []))
  | some (.tables last before) => some (t.put k (.tables [] (last :: before)))
  | _ => none

/-- Whether a dotted key may add its last part to a table of this origin, `final`, or pass through
it. -/
def Origin.admitsDotted (final : Bool) : Origin → Bool
  | .dotted => true
  | .implied => !final
  | .header => false

/-- Add a value under a dotted key. -/
def insert (v : Value) : List Key → Entries → Option Entries
  | [], _ => none
  | [k], t => match t.find? k with
    | none => some (t.put k (.value v))
    | some _ => none
  | k :: ks, t =>
    match t.find? k with
    | none => (insert v ks []).map fun s => t.put k (.table .dotted s)
    | some (.table o s) =>
      if Origin.admitsDotted (ks.length == 1) o then
        (insert v ks s).map fun s => t.put k (.table o s)
      else none
    | some (.tables last before) =>
      if ks.length == 1 then none
      else (insert v ks last).map fun s => t.put k (.tables s before)
    | some (.value _) => none

end Entries

mutual

/-- The value of a node, with nothing left open. -/
def Node.toValue : Node → Value
  | .value v => v
  | .table _ t => .table (sorted (entryValues t))
  | .tables last before =>
    .array ((Value.table (sorted (entryValues last)) :: tableValues before).reverse)

def entryValues : List (Key × Node) → List (Key × Value)
  | [] => []
  | (k, n) :: t => (k, n.toValue) :: entryValues t

def tableValues : List (List (Key × Node)) → List Value
  | [] => []
  | t :: ts => .table (sorted (entryValues t)) :: tableValues ts

end

/-- The table with these entries, with nothing left open. -/
def Entries.toValue (t : Entries) : Value := .table (sorted (entryValues t))

end PublishDesk.Toml
