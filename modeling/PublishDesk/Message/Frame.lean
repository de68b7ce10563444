import PublishDesk.Json.Record
import PublishDesk.Json.Value
import PublishDesk.Message.Basic

/-!
# Frames

A frame is the text of one message: a JSON object with the member `kind` and, unless the message is
a ping, the member `payload`. `Message.frame` writes it, `Message.decode` reads it, and `peekTag`
reads the kind alone.

A payload that stands in front of its kind is kept until the kind is known and only then looked
at; one that follows its kind is read at once.
-/

namespace PublishDesk
open Json Shape

/-! ## Writing -/

/-- The payload of a message. An absent review link is left out. -/
def Message.payload? : Message → Option Value
  | .ping => none
  | .pong s => some (.object
      (("server_active".toList, .flag s.serverActive) ::
        (s.reviewLink.map fun l => ("review_link".toList, Value.text l.toList)).toList))
  | .requestSave m => some (.object [("commit_message".toList, .text m.toList)])
  | .saveResult ok => some (.object [("ok".toList, .flag ok)])

/-- A message as a JSON value. -/
def Message.toJson (m : Message) : Value :=
  .object (("kind".toList, .text m.kind.tag.toList) ::
    (m.payload?.map fun p => ("payload".toList, p)).toList)

/-- The text of a message. -/
def Message.frame (m : Message) : String := String.ofList m.toJson.render

/-! ## Payloads -/

/-- A status while it is read. -/
structure StatusDraft where
  serverActive : Option Bool := none
  reviewLink : Option (Option String) := none

def statusRecord : Record StatusDraft HostStatus where
  title := "struct Pong"
  fields := [
    { name := "server_active", optional := false, filled := fun s => s.serverActive.isSome
      read := fun d s => d.readFlag.map fun b => { s with serverActive := some b } },
    { name := "review_link", optional := true, filled := fun s => s.reviewLink.isSome
      read := fun d s => d.readOptionalText.map fun l => { s with reviewLink := some l } }]
  blank := {}
  finish s := match s.serverActive with
    | none => .error (.missingField "server_active")
    | some b => .ok ⟨b, s.reviewLink.join⟩

/-- A record of one field, which is required. -/
def singleField {α : Type} (title name : String) (read : Doc → Except Failure α) :
    Record (Option α) α where
  title := title
  fields := [{ name := name, optional := false, filled := Option.isSome
               read := fun d _ => (read d).map some }]
  blank := none
  finish
    | none => .error (.missingField name)
    | some a => .ok a

def saveRequestRecord : Record (Option String) String :=
  singleField "struct RequestSave" "commit_message" Doc.readText

def saveResultRecord : Record (Option Bool) Bool :=
  singleField "struct SaveResult" "ok" Doc.readFlag

/-- Read the payload of a kind. -/
def Kind.readPayload (source : Source) (d : Doc) : Kind → Except Failure Message
  | .ping => (d.readNull "unit variant Message::Ping").map fun _ => .ping
  | .pong => (statusRecord.read source d).map .pong
  | .requestSave => (saveRequestRecord.read source d).map .requestSave
  | .saveResult => (saveResultRecord.read source d).map .saveResult

/-- The message of a kind without a payload. -/
def Kind.bare : Kind → Except Failure Message
  | .ping => .ok .ping
  | _ => mismatch (.missingField "payload")

/-! ## Kinds -/

/-- The kind that a tag names. -/
def Kind.ofTag (t : List Char) : Except Failure Kind :=
  match Kind.ofTag? (String.ofList t) with
  | some k => .ok k
  | none => mismatch (.unknownVariant t (Kind.all.map Kind.tag))

/-- Read a tag. -/
def Kind.readTag : Doc → Except Failure Kind
  | .text t => do Kind.ofTag (← orFault t.kept)
  | d => d.wrongType "variant identifier"

/-- Read the kind of a frame that is an object: a tag, or an object with the tag as the name of its
one member, null. -/
def Kind.read : Doc → Except Failure Kind
  | .text t => do Kind.ofTag (← orFault t.kept)
  | .object (.cons name value rest) => do
    let k ← Kind.ofTag (← orFault name.kept)
    value.readNull "unit"
    match rest with
    | .closed => return k
    | .broken f => throw (.fault f)
    | _ => throw (.fault .malformed)
  | .object (.nameless found) => found.wrongType "variant identifier"
  | .broken f => .error (.fault f)
  | _ => .error (.fault .malformed)

/-! ## Messages -/

/-- What has been read of the members of a frame: nothing, its kind, its payload (kept), or all
of the message. -/
inductive FrameDraft where
  | empty
  | kind (kind : Kind)
  | payload (payload : Doc)
  | whole (message : Message)

/-- A payload lies one level deep in its frame, and values may be nested 127 levels deep. -/
def payloadDepth : Nat := 126

namespace FrameDraft

/-- Take in the kind. -/
def addKind (value : Doc) : FrameDraft → Except Failure FrameDraft
  | .empty => (Kind.read value).map .kind
  | .payload p => do
    let k ← Kind.read value
    let m ← k.readPayload .kept p
    return .whole m
  | .kind _ | .whole _ => mismatch (.duplicateField "kind")

/-- Take in the payload. -/
def addPayload (value : Doc) : FrameDraft → Except Failure FrameDraft
  | .empty => do
    orFault (value.keep payloadDepth)
    return .payload value
  | .kind k => (k.readPayload .streamed value).map .whole
  | .payload _ | .whole _ => mismatch (.duplicateField "payload")

/-- The message of a frame that holds no other members. -/
def finish : FrameDraft → Except Failure Message
  | .empty | .payload _ => mismatch (.missingField "kind")
  | .kind k => k.bare
  | .whole m => .ok m

/-- Take in all members of a frame. -/
def ofMembers (s : FrameDraft) : Members → Except Failure FrameDraft
  | .closed => .ok s
  | .broken f => .error (.fault f)
  | .nameless found => .error (.fault found.namelessFault)
  | .cons name value rest => do
    let n ← orFault name.kept
    if n = "kind".toList then (← s.addKind value).ofMembers rest
    else if n = "payload".toList then (← s.addPayload value).ofMembers rest
    else
      orFault value.skip
      s.ofMembers rest

end FrameDraft

/-- The reader's word for a message in its failures. -/
def frameTitle : String := "adjacently tagged enum Message"

/-- Read a message: an object, or an array of tag and payload. -/
def Message.read : Doc → Except Failure Message
  | .array .closed => mismatch (.wrongLength 0 frameTitle)
  | .array (.broken f) => .error (.fault f)
  | .array (.cons tag rest) => do
    let k ← Kind.readTag tag
    match rest with
    | .closed => mismatch (.wrongLength 1 frameTitle)
    | .broken f => throw (.fault f)
    | .cons payload rest =>
      let m ← k.readPayload .streamed payload
      rest.atEnd .streamed 2
      return m
  | .object members => do
    let s ← FrameDraft.ofMembers .empty members
    s.finish
  | d => d.wrongType frameTitle

/-- The message of a frame. -/
def Message.decode (frame : String) : Except Failure Message := readDoc Message.read frame.toList

/-- The tag of a frame, whatever it says otherwise. -/
def peekTag (frame : String) : Except Failure String :=
  readDoc ((singleField "struct Envelope" "kind" Doc.readText).read .streamed) frame.toList

end PublishDesk
