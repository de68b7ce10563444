import PublishDesk.Json.Doc
import PublishDesk.Shape.Mismatch

/-!
# Reading values of a known shape

The readers here take a document apart from left to right and report the first problem that they
meet: a fault of the text, or a part of the wrong shape. A record is written as an object, whose
other members are skipped, or as an array of its fields in order.
-/

namespace PublishDesk.Json
open Shape

/-- Why a text could not be read as a value of the wanted shape. -/
inductive Failure where
  | fault (fault : Fault)
  | shape (mismatch : Mismatch)
deriving DecidableEq, Repr

/-- A fault of the text, as the failure of a reader. -/
def orFault {α : Type} (r : Except Fault α) : Except Failure α := r.mapError .fault

/-- A mismatch, as the failure of a reader. -/
def mismatch {α : Type} (m : Mismatch) : Except Failure α := .error (.shape m)

namespace Doc

/-- What a message calls the value. A value that is a single token is read to its end for that. -/
def found : Doc → Except Fault Found
  | .word w => w.map fun
    | .null => .null
    | .true => .flag true
    | .false => .flag false
  | .number n => n.kept.map fun
    | .integer i => .integer i
    | .floating x => .floating x
  | .text t => t.kept.map .text
  | .array _ => .ok .sequence
  | .object _ => .ok .table
  | .broken f => .error f

/-- The failure of a reader that wants `expected` and meets this value. -/
def wrongType {α : Type} (expected : String) (d : Doc) : Except Failure α := do
  let x ← orFault d.found
  mismatch (.wrongType x expected)

def readFlag : Doc → Except Failure Bool
  | .word (.ok .true) => .ok true
  | .word (.ok .false) => .ok false
  | d => d.wrongType "a boolean"

def readText : Doc → Except Failure String
  | .text t => orFault (t.kept.map String.ofList)
  | d => d.wrongType "a string"

/-- A text that may be absent, written as null. -/
def readOptionalText : Doc → Except Failure (Option String)
  | .word (.ok .null) => .ok none
  | d => d.readText.map some

/-- Nothing, written as null; `expected` is the reader's word for it. -/
def readNull (expected : String) : Doc → Except Failure Unit
  | .word (.ok .null) => .ok ()
  | d => d.wrongType expected

end Doc

/-- One field of a record that is filled in step by step: the draft `σ` holds what has been read
so far. An optional field may be missing. -/
structure RecordField (σ : Type) where
  name : String
  optional : Bool
  filled : σ → Bool
  read : Doc → σ → Except Failure σ

/-- The shape of a record `α` that is read by way of the draft `σ`. -/
structure Record (σ α : Type) where
  title : String
  fields : List (RecordField σ)
  blank : σ
  finish : σ → Except Mismatch α

/-- Whether a value is read straight from the text, or was kept whole before. The two report too
many items of an array differently. -/
inductive Source where
  | streamed
  | kept
deriving DecidableEq, Repr

namespace Items

def length : Items → Nat
  | .closed => 0
  | .broken _ => 0
  | .cons _ rest => rest.length + 1

/-- Check that the `count` items read so far were the last ones. -/
def atEnd (source : Source) (count : Nat) : Items → Except Failure Unit
  | .closed => .ok ()
  | .broken f => .error (.fault f)
  | .cons item rest => match source with
    | .streamed => .error (.fault .malformed)
    | .kept =>
      mismatch (.wrongLength (count + (cons item rest).length) (elements count ++ " in sequence"))

end Items

namespace Record

variable {σ α : Type}

/-- Read the fields, in order, from the items of an array. -/
def ofItems (expected : String) (count : Nat) (s : σ) : List (RecordField σ) → Items →
    Except Failure (σ × Items)
  | [], items => .ok (s, items)
  | f :: fs, .closed =>
    if f.optional then ofItems expected (count + 1) s fs .closed
    else mismatch (.wrongLength count expected)
  | _ :: _, .broken e => .error (.fault e)
  | f :: fs, .cons item rest => do
    let s ← f.read item s
    ofItems expected (count + 1) s fs rest

/-- Fill in the fields from the members of an object. -/
def ofMembers (fields : List (RecordField σ)) (s : σ) : Members → Except Failure σ
  | .closed => .ok s
  | .broken f => .error (.fault f)
  | .nameless found => .error (.fault found.namelessFault)
  | .cons name value rest => do
    let n ← orFault name.kept
    match fields.find? fun f => f.name.toList == n with
    | none =>
      orFault value.skip
      ofMembers fields s rest
    | some f =>
      if f.filled s then mismatch (.duplicateField f.name)
      else
        let s ← f.read value s
        ofMembers fields s rest

/-- Read a record. -/
def read (r : Record σ α) (source : Source) : Doc → Except Failure α
  | .array items => do
    let n := r.fields.length
    let (s, rest) ← ofItems (r.title ++ " with " ++ elements n) 0 r.blank r.fields items
    let a ← (r.finish s).mapError .shape
    rest.atEnd source n
    return a
  | .object members => do
    let s ← ofMembers r.fields r.blank members
    (r.finish s).mapError .shape
  | d => d.wrongType r.title

end Record

/-- Read the items of a list up to its end. -/
def Items.readAll {α : Type} (f : Doc → Except Failure α) : Items → Except Failure (List α)
  | .closed => .ok []
  | .broken e => .error (.fault e)
  | .cons item rest => do
    let a ← f item
    let as ← rest.readAll f
    return a :: as

/-- Read a list. -/
def Doc.readList {α : Type} (f : Doc → Except Failure α) : Doc → Except Failure (List α)
  | .array items => items.readAll f
  | d => d.wrongType "a sequence"

/-- Read a whole text: nothing but white space may follow the value. -/
def readDoc {α : Type} (f : Doc → Except Failure α) (cs : List Char) : Except Failure α := do
  let (doc, rest) := Doc.read cs
  let a ← f doc
  if rest.isEmpty then return a else throw (.fault .malformed)

end PublishDesk.Json
