import PublishDesk.Client.Transport
import PublishDesk.Text.Digits
import PublishDesk.Text.Hex

/-!
# Requests and answers on the wire

A request is one text, and its connection carries no other. An answer is read byte by byte: a head
of lines, and a body that ends after a stated number of bytes, after its last chunk, or with the
connection.
-/

namespace PublishDesk

/-! ## Addresses and requests -/

/-- Where a host is found, and what it is asked for. -/
structure HostAddress where
  name : String
  port : Nat
  target : String
deriving DecidableEq, Repr

/-- The address that a URL stands for; only connections without encryption are made. -/
def HostAddress.ofUrl? (u : Url) : Option HostAddress := do
  let name ← u.host
  if u.scheme ≠ "http".toList then none
  let bare := if name.head? = some '[' then (name.drop 1).dropLast else name
  let target := u.path ++ ((u.query.map ('?' :: ·)).getD [])
  return ⟨String.ofList bare, u.port.getD 80, String.ofList target⟩

/-- The text of a request. -/
def Outgoing.text (r : Outgoing) (a : HostAddress) : String :=
  let line (name : String) (value : Option String) :=
    (value.map fun v => name ++ ": " ++ v).toList
  let length := r.body.map fun b => toString b.utf8ByteSize
  let head := [r.method ++ " " ++ a.target ++ " HTTP/1.1",
      "Host: " ++ a.name ++ ":" ++ toString a.port, "Connection: close"] ++
    line "Accept" r.accept ++ line "Content-Type" r.contentType ++ line "Content-Length" length
  String.intercalate "\r\n" (head ++ ["", ""]) ++ r.body.getD ""

/-! ## Answers -/

/-- The part of an answer that the next byte belongs to. Lines that are not complete yet are held
with their latest byte first. -/
inductive AnswerPart where
  /-- The head; `chunked` and `length` are what its lines have said of the body. -/
  | head (chunked : Bool) (length : Option Nat) (line : List UInt8)
  /-- The body, with so many bytes to come if that is known. -/
  | body (left : Option Nat)
  /-- The line with the size of a chunk. -/
  | size (line : List UInt8)
  | chunk (left : Nat)
  /-- The line end behind a chunk. -/
  | chunkEnd
  /-- What follows the body. -/
  | trailer
deriving DecidableEq, Repr

/-- What has been read of an answer. -/
structure AnswerReader where
  code : Option Nat := none
  part : AnswerPart := .head false none []
deriving DecidableEq, Repr

namespace AnswerReader

/-- The text of a line that is held with its latest byte first. -/
def lineText (line : List UInt8) : List Char :=
  Text.dropFinal '\r' (Text.Utf8.decodeLossy line.reverse)

/-- The number in a first line: the second of its words. -/
def codeOf (line : List Char) : Nat :=
  Text.decimalValue ((((Text.splitOn ' ' line)[1]?).getD []).filter Char.isDigit)

/-- Take in a line of the head, its first line or one with a name and a value. -/
def headLine (r : AnswerReader) (chunked : Bool) (length : Option Nat) (line : List Char) :
    AnswerReader :=
  match r.code with
  | none => ⟨some (codeOf line), .head false none []⟩
  | some code =>
    if line.isEmpty then
      ⟨some code, if chunked then .size [] else .body length⟩
    else
      let name := String.ofList ((line.takeWhile (· != ':')).map Char.toLower)
      let value := ((line.dropWhile (· != ':')).drop 1).dropWhile (· == ' ')
      if name = "transfer-encoding" then
        ⟨some code, .head (String.ofList (value.map Char.toLower) == "chunked") length []⟩
      else if name = "content-length" then
        ⟨some code, .head chunked (some (Text.decimalValue (value.filter Char.isDigit))) []⟩
      else ⟨some code, .head chunked length []⟩

/-- The number in the line with the size of a chunk. -/
def chunkSize (line : List Char) : Nat :=
  ((line.map Text.hexValue?).takeWhile Option.isSome).foldl (fun n d => n * 16 + d.getD 0) 0

/-- Take in one byte. The result says whether it belongs to the body. -/
def step (r : AnswerReader) (b : UInt8) : AnswerReader × Option UInt8 :=
  match r.part with
  | .head chunked length line =>
    if b = 0x0a then (r.headLine chunked length (lineText line), none)
    else ({ r with part := .head chunked length (b :: line) }, none)
  | .body none => (r, some b)
  | .body (some 0) => (r, none)
  | .body (some (n + 1)) => ({ r with part := .body (some n) }, some b)
  | .size line =>
    if b = 0x0a then
      match chunkSize (lineText line) with
      | 0 => ({ r with part := .trailer }, none)
      | n => ({ r with part := .chunk n }, none)
    else ({ r with part := .size (b :: line) }, none)
  | .chunk n => ({ r with part := if n ≤ 1 then .chunkEnd else .chunk (n - 1) }, some b)
  | .chunkEnd => (if b = 0x0a then { r with part := .size [] } else r, none)
  | .trailer => (r, none)

/-- Take in bytes; those of the body are returned. -/
def push (r : AnswerReader) : List UInt8 → AnswerReader × List UInt8
  | [] => (r, [])
  | b :: bs =>
    let next := r.step b
    let rest := next.1.push bs
    (rest.1, next.2.toList ++ rest.2)

/-- The number of the answer, once its head is complete. -/
def code? (r : AnswerReader) : Option Nat :=
  match r.part with
  | .head _ _ _ => none
  | _ => r.code

/-- Whether the body is complete. -/
def isComplete (r : AnswerReader) : Bool :=
  match r.part with
  | .body (some 0) | .trailer => true
  | _ => false

/-- Whether the connection may end here. -/
def mayEnd (r : AnswerReader) : Bool :=
  match r.part with
  | .body none => true
  | _ => r.isComplete

end AnswerReader
end PublishDesk
