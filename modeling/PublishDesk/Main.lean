import PublishDesk.Client.Wire
import PublishDesk.CommandLine.Commands
import Std.Async.DNS
import Std.Async.TCP
import Std.Async.Timer

/-!
# The programs

The outer layer of `panel` and `panel-host`. It does errands on the file system and over the
network, keeps a connected view going, and prints lines.
-/

open Std.Async

namespace PublishDesk.CommandLine

/-! ## Files -/

/-- The failure that a call to the file system has reported. -/
def fileError : IO.Error → FileError
  | .noFileOrDirectory _ _ _ => .notFound
  | .alreadyExists _ _ _ => .alreadyExists
  | .permissionDenied _ _ _ => .other "Permission denied (os error 13)"
  | e => .other (toString e)

def attemptFile {α : Type} (act : IO α) : IO (Except FileError α) := do
  match ← act.toBaseIO with
  | .ok a => return .ok a
  | .error e => return .error (fileError e)

/-- The tree at a directory entry; files are not opened and links are not followed. -/
partial def readTree (entry : IO.FS.DirEntry) : IO Tree := do
  let path := if entry.fileName.isEmpty then entry.root else entry.path
  match (← path.symlinkMetadata).type with
  | .symlink => return .link []
  | .dir =>
    let mut entries := []
    for e in ← path.readDir do
      entries := (Text.Utf8.encode e.fileName.toList, ← readTree e) :: entries
    return .directory entries
  | _ => return .file []

def accessFiles : (a : Access) → IO a.Answer
  | .change (.createDirectory p) =>
    attemptFile (if p.isEmpty then pure () else IO.FS.createDirAll (String.ofList p))
  | .change (.write p text) =>
    attemptFile (IO.FS.writeBinFile (String.ofList p) ⟨(Text.Utf8.encode text).toArray⟩)
  | .change (.rename p q) => attemptFile (IO.FS.rename (String.ofList p) (String.ofList q))
  | .isThere p => do return (← attemptFile (IO.FS.realPath (String.ofList p))).isOk
  | .content p =>
    attemptFile do return (← IO.FS.readBinFile (String.ofList p)).toList
  | .canonical p => do
    return (← attemptFile (IO.FS.realPath (String.ofList p))).toOption.map fun q =>
      (toString q).toList
  | .survey p => do
    let found ← attemptFile do
      match ← readTree { root := String.ofList p, fileName := "" } with
      | .link _ =>
        let t ← readTree { root := ← IO.FS.realPath (String.ofList p), fileName := "" }
        return if t.isDirectory then some t else none
      | t => return some t
    return found.toOption.join

/-! ## Requests -/

/-- A connection with what has come of the answer on it. -/
structure Link where
  socket : TCP.Socket.Client
  reader : AnswerReader
  /-- The part of the body that came with the head. -/
  received : List UInt8

/-- Connect to one of the addresses of a host. -/
def connectTo (a : HostAddress) : Async TCP.Socket.Client := do
  let port := UInt16.ofNat a.port
  let mut failure := IO.userError "no address for the name of the host"
  for ip in ← DNS.getAddrInfo a.name (toString a.port) do
    try
      let socket ← TCP.Socket.Client.mk
      socket.connect (match ip with
        | .v4 n => .v4 ⟨n, port⟩
        | .v6 n => .v6 ⟨n, port⟩)
      return socket
    catch e => failure := e
  throw failure

/-- Read until the head of an answer is complete. -/
partial def readHead (l : Link) : Async Link := do
  if l.reader.code?.isSome then return l
  match ← l.socket.recv? 65536 with
  | none => throw (IO.userError "connection closed before message completed")
  | some bytes =>
    let r := l.reader.push bytes.toList
    readHead { l with reader := r.1, received := l.received ++ r.2 }

/-- Make a request. -/
def exchange (base : String) (r : Outgoing) : IO (Except (List String) Link) := do
  match Transport.destination base r with
  | .error causes => return .error causes
  | .ok u =>
    let failed := Transport.unanswered u
    match HostAddress.ofUrl? u with
    | none => return .error [failed, "client error (Connect)", "no encryption"]
    | some a =>
      match ← (connectTo a).block.toBaseIO with
      | .error (.noSuchThing _ _ "connection refused") => return .error (Transport.refusal u)
      | .error e => return .error [failed, "client error (Connect)", toString e]
      | .ok socket =>
        let answer : Async Link := do
          socket.send (r.text a).toUTF8
          readHead ⟨socket, {}, []⟩
        match ← answer.block.toBaseIO with
        | .error e => return .error [failed, "client error (SendRequest)", toString e]
        | .ok l => return .ok l

/-- Do an errand. The connection with the stream of events is kept. -/
def doErrand (stream : IO.Ref (Option Link)) : (e : Errand) → IO e.Answer
  | .access a => accessFiles a
  | .request base r => do
    match ← exchange base r with
    | .error causes => return .failed causes
    | .ok l =>
      if r = Transport.eventsRequest then stream.set (some l)
      return .answered (l.reader.code?.getD 0)

/-- Do all errands of a program. -/
def doErrands {α : Type} (stream : IO.Ref (Option Link)) : Errands α → IO α
  | .done a => return a
  | .ask e next => do doErrands stream (next (← doErrand stream e))

/-! ## Views -/

/-- The time between two looks at a view, in milliseconds. -/
def pause : Std.Time.Millisecond.Offset := 20

/-- Wait for the stream, but not for long. -/
def listen (l : Link) (v : ViewRun) : Async (Link × ViewRun) := do
  Selectable.one #[
    .case (← Selector.sleep pause) fun _ => return (l, v),
    .case (l.socket.recvSelector 65536) fun
      | none => return (l, v.endStream (if l.reader.mayEnd then .ok () else
          .error (.readFailed ["error decoding response body", "unexpected end of file"])))
      | some bytes =>
        let r := l.reader.push bytes.toList
        let v := v.receive r.2
        return ({ l with reader := r.1 }, if r.1.isComplete then v.endStream (.ok ()) else v)]

/-- Take in what arrives, if there is a stream still. -/
def listenOn (l : Link) (v : ViewRun) : IO (Link × ViewRun) := do
  if v.streamEnd.isSome then
    IO.sleep 20
    return (l, v)
  match ← (listen l v).block.toBaseIO with
  | .ok r => return r
  | .error e => return (l, v.endStream (.error (.readFailed [toString e])))

/-- Post the frames that wait. -/
partial def postFrames (base : String) (v : ViewRun) : IO ViewRun := do
  match v.nextFrame? with
  | (none, v) => return v
  | (some frame, v) =>
    discard <| exchange base (Transport.messageRequest frame)
    postFrames base v

/-- Keep a view going until a look at it finds an ending. -/
partial def runView {σ : Type} (base : String) (view : σ → ViewRun) (withView : σ → ViewRun → σ)
    (look : σ → IO (Except Ending σ)) (l : Link) (last : Nat) (s : σ) : IO Ending := do
  match ← look s with
  | .error ending => return ending
  | .ok s =>
    let v ← postFrames base (view s)
    let (l, v) ← listenOn l v
    let now ← IO.monoMsNow
    runView base view withView look l now (withView s (v.advance (now - last)))

/-- Start a view with what came with the head of the stream. -/
def startView {σ : Type} (base : String) (stream : Option Link) (view : σ → ViewRun)
    (withView : σ → ViewRun → σ) (look : σ → IO (Except Ending σ)) (s : σ) : IO Ending := do
  match stream with
  | none => return { code := Ending.invalid }
  | some l =>
    let v := (view s).receive l.received
    let v := if l.reader.isComplete then v.endStream (.ok ()) else v
    runView base view withView look l (← IO.monoMsNow) (withView s v)

/-- Look at a view that waits for a save. -/
def lookAtSave (r : SaveRun) : IO (Except Ending SaveRun) :=
  return match r.poll with
    | some ending => .error ending
    | none => .ok r

/-- Look at a view that watches the status, and print its line if that has changed. -/
def lookAtStatus (r : WatchRun) : IO (Except Ending WatchRun) := do
  let (line, r) := r.poll
  if let some line := line then IO.println line
  return match r.ending? with
    | some ending => .error ending
    | none => .ok r

/-! ## Programs -/

/-- Print the lines of an ending. -/
def finish (e : Ending) : IO UInt32 := do
  e.output.forM (IO.println ·)
  e.errors.forM (IO.eprintln ·)
  return UInt32.ofNat e.code

/-- The base address among the arguments of a command that connects to a host. -/
def baseOf (words : List String) : String :=
  match readPanel words with
  | .run ⟨_, .attach url⟩ | .run ⟨_, .save url _ _⟩ => Transport.baseUrl url
  | _ => ""

def mainPanel (words : List String) : IO UInt32 := do
  let stream ← IO.mkRef none
  match ← doErrands stream (panel words) with
  | .ended ending => finish ending
  | .saving r =>
    finish (← startView (baseOf words) (← stream.get) SaveRun.view
      (fun r v => { r with view := v }) lookAtSave r)
  | .watching r =>
    finish (← startView (baseOf words) (← stream.get) WatchRun.view
      (fun r v => { r with view := v }) lookAtStatus r)

/-- A host runs workers and commands, which this outer layer does not: it ends before the socket. -/
def mainHost (words : List String) : IO UInt32 := do
  match ← doErrands (← IO.mkRef none) (host words) with
  | .error ending => finish ending
  | .ok plan =>
    finish (hostFailed ⟨"cannot listen at " ++ plan.bind ++ ":" ++ toString plan.port,
      ["no commands can be run from here"]⟩)

end PublishDesk.CommandLine

/-- The program's own name tells which of the two it is. -/
def main (words : List String) : IO UInt32 := do
  if (toString (← IO.appPath)).endsWith "panel-host" then PublishDesk.CommandLine.mainHost words
  else PublishDesk.CommandLine.mainPanel words
