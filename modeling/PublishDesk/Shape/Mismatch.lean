import PublishDesk.Decimal.Shortest
import PublishDesk.Text.Quoted

/-!
# Values of the wrong shape

A document can be well-formed and still not hold what its reader wants. `Mismatch` lists the causes,
and `Mismatch.message` words them. Messages name the value that was found (`Found`); how a
floating-point number is written in them is the format's decision.
-/

namespace PublishDesk.Shape
open Decimal

/-- What a reader met in place of what it wanted. -/
inductive Found where
  | null
  | flag (value : Bool)
  | integer (value : Int)
  /-- An integer beyond 64 bits in a format that admits it. -/
  | wideInteger (value : Int)
  /-- An integer that needs all of 128 bits. -/
  | widestInteger (value : Int)
  | floating (value : Binary64)
  | text (value : List Char)
  | sequence
  | table
deriving DecidableEq, Repr

/-- Why a document does not have the shape its reader wants. -/
inductive Mismatch where
  | missingField (name : String)
  | duplicateField (name : String)
  | wrongType (found : Found) (expected : String)
  | wrongValue (found : Found) (expected : String)
  | wrongLength (count : Nat) (expected : String)
  | unknownVariant (name : List Char) (known : List String)
  /-- A choice was written neither as a text nor as a table. -/
  | notAChoice
  /-- A choice was written as a table without keys. -/
  | noChoice
  /-- A choice was written as a table with several keys. -/
  | manyChoices
  /-- A choice that holds nothing was written with a table or an array (`what`) that is not
  empty. -/
  | notEmpty (what : String)
  /-- A choice that holds nothing was written with a value that can never be empty. -/
  | notATable (found : String)
  | integerOverflow
  | floatOverflow
deriving DecidableEq, Repr

/-- A name between the marks that set it off in a message. -/
def marked (cs : List Char) : List Char := ['\x60'] ++ cs ++ ['\x60']

def Found.describe (l : Layout) : Found → List Char
  | .null => "null".toList
  | .flag b => "boolean ".toList ++ marked (toString b).toList
  | .integer i => "integer ".toList ++ marked (toString i).toList
  | .wideInteger i => "integer ".toList ++ marked (toString i).toList ++ " as i128".toList
  | .widestInteger i => "integer ".toList ++ marked (toString i).toList ++ " as u128".toList
  | .floating x => "floating point ".toList ++ marked (x.text l)
  | .text t => "string ".toList ++ Text.quoted t
  | .sequence => "sequence".toList
  | .table => "map".toList

/-- The known alternatives, as a message lists them. -/
def alternatives : List String → List Char
  | [] => "there are no variants".toList
  | [a] => "expected ".toList ++ marked a.toList
  | [a, b] => "expected ".toList ++ marked a.toList ++ " or ".toList ++ marked b.toList
  | names =>
    "expected one of ".toList ++
      ((names.map fun n => marked n.toList).intersperse ", ".toList).flatten

/-- The wording of a mismatch in a format that writes floating-point numbers in layout `l`. -/
def Mismatch.message (l : Layout) : Mismatch → List Char
  | .missingField f => "missing field ".toList ++ marked f.toList
  | .duplicateField f => "duplicate field ".toList ++ marked f.toList
  | .wrongType x e => "invalid type: ".toList ++ x.describe l ++ ", expected ".toList ++ e.toList
  | .wrongValue x e => "invalid value: ".toList ++ x.describe l ++ ", expected ".toList ++ e.toList
  | .wrongLength n e =>
    "invalid length ".toList ++ (toString n).toList ++ ", expected ".toList ++ e.toList
  | .unknownVariant v known =>
    "unknown variant ".toList ++ marked v ++ ", ".toList ++ alternatives known
  | .notAChoice => "wanted string or table".toList
  | .noChoice => "wanted exactly 1 element, found 0 elements".toList
  | .manyChoices => "wanted exactly 1 element, more than 1 element".toList
  | .notEmpty what => "expected empty ".toList ++ what.toList
  | .notATable found => "expected table, found ".toList ++ found.toList
  | .integerOverflow => "integer number overflowed".toList
  | .floatOverflow => "floating-point number overflowed".toList

/-- The phrase for a record of `n` fields. -/
def elements (n : Nat) : String := toString n ++ (if n = 1 then " element" else " elements")

end PublishDesk.Shape
