import PublishDesk.Shape.Mismatch
import PublishDesk.Toml.Value

/-!
# Reading TOML values of a known shape

The entries of a table are visited in the order of their keys, so the mismatch that is reported is
the one under the smallest key. Unknown entries are passed over, but a number among them that no
reader could represent is still a mismatch. A record may also be written as an array of its fields
in order. A field that is missing keeps the value it had.
-/

namespace PublishDesk.Toml
open Shape

namespace Value

/-- The word for the kind of a value. -/
def kindName : Value → String
  | .text _ => "string"
  | .flag _ => "boolean"
  | .integer _ => "integer"
  | .floating _ => "float"
  | .moment _ => "datetime"
  | .array _ => "array"
  | .table _ => "table"

/-- The integers of 128 bits with a sign are those below this number and not below its negative. -/
def wideLimit : Int := 0x80000000000000000000000000000000

/-- What a message calls the value. Dates and times count as tables. -/
def found : Value → Except Mismatch Found
  | .text t => .ok (.text t)
  | .flag b => .ok (.flag b)
  | .integer none => .error .integerOverflow
  | .integer (some i) =>
    if -0x8000000000000000 ≤ i ∧ i < 0x10000000000000000 then .ok (.integer i)
    else if -wideLimit ≤ i ∧ i < wideLimit then .ok (.wideInteger i)
    else if 0 ≤ i ∧ i < 2 * wideLimit then .ok (.widestInteger i)
    else .error .integerOverflow
  | .floating (some x) => .ok (.floating x)
  | .floating none => .error .floatOverflow
  | .moment _ => .ok .table
  | .array _ => .ok .sequence
  | .table _ => .ok .table

/-- The mismatch of a reader that wants `expected` and meets this value. -/
def wrongType {α : Type} (expected : String) (v : Value) : Except Mismatch α := do
  let x ← v.found
  .error (.wrongType x expected)

mutual

/-- Pass over a value. -/
def ignore : Value → Except Mismatch Unit
  | .array items => ignoreItems items
  | .table entries => ignoreEntries entries
  | .text _ | .flag _ | .moment _ => .ok ()
  | .integer i => (found (.integer i)).map fun _ => ()
  | .floating x => (found (.floating x)).map fun _ => ()

def ignoreItems : List Value → Except Mismatch Unit
  | [] => .ok ()
  | v :: vs => do v.ignore; ignoreItems vs

def ignoreEntries : List (Key × Value) → Except Mismatch Unit
  | [] => .ok ()
  | (_, v) :: t => do v.ignore; ignoreEntries t

end

def readText : Value → Except Mismatch String
  | .text t => .ok (String.ofList t)
  | v => v.wrongType "a string"

/-- Read a natural number of 64 bits; `expected` is the reader's word for it. -/
def readWord (expected : String) (v : Value) : Except Mismatch Nat := do
  match ← v.found with
  | .integer i => if 0 ≤ i then return i.toNat else throw (.wrongValue (.integer i) expected)
  | x => throw (.wrongType x expected)

def readTexts : Value → Except Mismatch (List String)
  | .array items => items.mapM readText
  | v => v.wrongType "a sequence"

/-- Check that a value which stands for nothing holds nothing. -/
def readEmpty : Value → Except Mismatch Unit
  | .table [] | .array [] => .ok ()
  | .table (_ :: _) => .error (.notEmpty "table")
  | .array (_ :: _) => .error (.notEmpty "array")
  | v => .error (.notATable v.kindName)

/-- The one of several named alternatives that a text names. -/
def pick {α : Type} (choices : List (String × α)) (name : List Char) : Except Mismatch α :=
  match choices.find? fun c => c.1.toList == name with
  | some c => .ok c.2
  | none => .error (.unknownVariant name (choices.map (·.1)))

/-- Read one of several named alternatives: its name, or a table with the name as its one key. -/
def readChoice {α : Type} (choices : List (String × α)) : Value → Except Mismatch α
  | .text t => pick choices t
  | .table [] => .error .noChoice
  | .table [(k, v)] => do
    let a ← pick choices k
    v.readEmpty
    return a
  | .table _ => .error .manyChoices
  | _ => .error .notAChoice

end Value

/-- One field of a record: its name, and how a value changes it. -/
structure RecordField (σ : Type) where
  name : String
  read : Value → σ → Except Mismatch σ

/-- Set the fields that entries name. -/
def readEntries {σ : Type} (fields : List (RecordField σ)) (s : σ) :
    List (Key × Value) → Except Mismatch σ
  | [] => .ok s
  | (k, v) :: t => do
    match fields.find? fun f => f.name.toList == k with
    | some f => readEntries fields (← f.read v s) t
    | none =>
      v.ignore
      readEntries fields s t

/-- Set the fields, in order, from the items of an array. -/
def readItems {σ : Type} (s : σ) :
    List (RecordField σ) → List Value → Except Mismatch σ
  | f :: fs, v :: vs => do readItems (← f.read v s) fs vs
  | _, _ => .ok s

/-- Change a record as a value says; `title` is the reader's word for the record. -/
def Value.readRecord {σ : Type} (title : String) (fields : List (RecordField σ)) (s : σ) :
    Value → Except Mismatch σ
  | .table entries => readEntries fields s entries
  | .array items => readItems s fields items
  | .moment _ => .ok s
  | v => v.wrongType title

end PublishDesk.Toml
