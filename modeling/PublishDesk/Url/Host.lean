import PublishDesk.Url.Basic
import PublishDesk.Url.Numeric

/-!
# Hosts of URLs

A host is the name of a domain or a numeric address. A name whose last part is a number has to be
an address of four numbers; any of them may be written in base 8 or 16, and the last one may stand
for several.
-/

namespace PublishDesk.Url

/-- The address in brackets. -/
def readGrouped (cs : List Char) : Except UrlError (List Char) :=
  match cs.getLast?, Numeric.grouped? cs.dropLast with
  | some ']', some ns => .ok (['['] ++ Numeric.groupedText ns ++ [']'])
  | _, _ => .error .invalidGrouped

/-! ## Addresses of four numbers -/

/-- The digits and the base of a number. -/
def basedDigits : List Char → Nat × List Char
  | '0' :: 'x' :: ds => (16, ds)
  | '0' :: d :: ds => (8, d :: ds)
  | ds => (10, ds)

/-- A number of an address. -/
def number? (cs : List Char) : Option Nat :=
  if cs.isEmpty then none
  else
    let (base, ds) := basedDigits cs
    if ds.all fun d => (Text.hexValue? d).any (· < base) then
      some (ds.foldl (fun n d => n * base + (Text.hexValue? d).getD 0) 0)
    else none

/-- The parts of a name; a dot at its end adds none. -/
def nameParts (name : List Char) : List (List Char) :=
  let parts := Text.splitOn '.' name
  if 1 < parts.length && parts.getLast? == some [] then parts.dropLast else parts

/-- Whether the last part of a name is a number. -/
def endsInNumber (name : List Char) : Bool :=
  match (nameParts name).getLast? with
  | none => false
  | some p => !p.isEmpty && (p.all Char.isDigit || (number? p).isSome)

/-- The value of the numbers of an address: each but the last stands for 8 of the 32 bits. -/
def addressValue? (numbers : List Nat) : Option Nat :=
  let first := numbers.dropLast
  let last := numbers.getLast?.getD 0
  if numbers.isEmpty || 4 < numbers.length || first.any (256 ≤ ·) then none
  else
    let width := Nat.pow 256 (4 - first.length)
    if last < width then some (first.foldl (fun n b => n * 256 + b) 0 * width + last) else none

/-- The address that a name stands for. -/
def readDotted (name : List Char) : Except UrlError (List Char) :=
  match ((nameParts name).mapM number?).bind addressValue? with
  | some n => .ok (Numeric.dottedText n)
  | none => .error .invalidDotted

/-! ## Names of domains -/

/-- Replace percent signs and two digits by the bytes they stand for. -/
def percentDecode : List UInt8 → List UInt8
  | 0x25 :: a :: b :: bs =>
    match Text.hexValue? (Char.ofNat a.toNat), Text.hexValue? (Char.ofNat b.toNat) with
    | some h, some l => UInt8.ofNat (h * 16 + l) :: percentDecode bs
    | _, _ => 0x25 :: percentDecode (a :: b :: bs)
  | b :: bs => b :: percentDecode bs
  | [] => []

/-- The characters that no name of a domain holds. -/
def isForbiddenInName (c : Char) : Bool :=
  c ≤ ' ' || c == '\x7f' || "%#/:<>?@[\\]^|".toList.contains c

/-- The name of a domain, in lower case. -/
def readName (cs : List Char) : Except UrlError (List Char) :=
  match Text.Utf8.decode? (percentDecode (Text.Utf8.encode cs)) with
  | none => .error .invalidDomain
  | some name =>
    let name := name.map Char.toLower
    if name.any isForbiddenInName then .error .invalidDomain
    else if name.isEmpty then .error .emptyHost
    else if endsInNumber name then readDotted name
    else .ok name

/-- The characters that a host may not hold where it is not the name of a domain. -/
def isForbidden (c : Char) : Bool :=
  c == '\x00' || "\t\n\r #/:<>?@[\\]^|".toList.contains c

/-- The host of a URL. -/
def readHost (special : Bool) (cs : List Char) : Except UrlError (List Char) :=
  match cs with
  | '[' :: cs => readGrouped cs
  | cs =>
    if special then readName cs
    else if cs.any isForbidden then .error .invalidCharacter
    else .ok (percentEncode isControl cs)

end PublishDesk.Url
