import PublishDesk.EventStream.Decoder
import PublishDesk.Diagnosis
import PublishDesk.Program
import PublishDesk.Url.Reader

/-!
# Talking to a host

A view asks whether the host is there, posts frames to it, and opens its stream of events. Each is
one request; what its answer means is said here, whoever carries it out.
-/

namespace PublishDesk

/-- A request to a host. -/
structure Outgoing where
  method : String
  path : String
  accept : Option String := none
  contentType : Option String := none
  body : Option String := none
deriving DecidableEq, Repr

/-- What came of a request: the number of the host's answer, or the causes for which there is
none. -/
inductive Reply where
  | answered (code : Nat)
  | failed (causes : List String)
deriving DecidableEq, Repr

/-- A program that makes requests. -/
abbrev Requests := Program Outgoing fun _ => Reply

/-- Why a request did not do what it was made for. -/
inductive TransportFailure where
  | unreachable (base : String) (causes : List String)
  | unhealthy (code : Nat)
  | notPosted (causes : List String)
  | rejected (code : Nat)
  | notOpened (causes : List String)
  | refused (code : Nat)
  /-- Another view holds the stream. -/
  | alreadyAttached
  /-- The stream broke off. -/
  | readFailed (causes : List String)
deriving DecidableEq, Repr

/-- How an answer that reports an error is worded. -/
def errorText (code : Nat) : String :=
  let side := if code < 500 then "client" else "server"
  "HTTP status " ++ side ++ " error (" ++ toString code ++ ")"

def TransportFailure.diagnosis : TransportFailure → Diagnosis
  | .unreachable base causes => ⟨"reach host at " ++ base, causes⟩
  | .unhealthy code => ⟨"host health check", [errorText code]⟩
  | .notPosted causes => ⟨"post message to host", causes⟩
  | .rejected code => ⟨"host rejected message", [errorText code]⟩
  | .notOpened causes => ⟨"open event stream", causes⟩
  | .refused code => ⟨"open event stream", [errorText code]⟩
  | .alreadyAttached => ⟨"another view is already attached to this host", []⟩
  | .readFailed causes => ⟨"read event stream", causes⟩

/-- Whether an answer reports an error. -/
def isErrorCode (code : Nat) : Bool := 400 ≤ code && code < 600

namespace Transport

/-- The address of a host without slashes at its end. -/
def baseUrl (url : String) : String :=
  String.ofList (url.toList.reverse.dropWhile (· == '/')).reverse

def healthRequest : Outgoing := { method := "GET", path := "/api/health" }

def messageRequest (frame : String) : Outgoing :=
  { method := "POST", path := "/api/messages", contentType := some "application/json"
    body := some frame }

def eventsRequest : Outgoing :=
  { method := "GET", path := "/events", accept := some "text/event-stream" }

/-- The schemes of the addresses that requests are made to. -/
def schemes : List String := ["http", "https"]

/-- The characters that a name in a request may not hold, though it may hold them in a URL. -/
def isBarred (c : Char) : Bool := "\"`\x7b\x7d".toList.contains c

/-- The URL that a request goes to, or why it cannot be made. -/
def destination (base : String) (r : Outgoing) : Except (List String) Url :=
  match Url.read (base ++ r.path).toList with
  | .error e => .error ["builder error", e.message]
  | .ok u =>
    let named := if u.host.isSome then u.withoutCredentials else u
    let failed (reason : String) : Except (List String) Url :=
      .error ["builder error for url (" ++ String.ofList named.text ++ ")", reason]
    if u.host.isNone || !schemes.any (·.toList == u.scheme) then failed "URL scheme is not allowed"
    else if u.host.any (·.any isBarred) then failed "Parsed Url is not a valid Uri"
    else .ok named

/-- The cause that no answer has come from a URL. -/
def unanswered (u : Url) : String :=
  "error sending request for url (" ++ String.ofList u.text ++ ")"

/-- Why a request comes to nothing where nobody listens. -/
def refusal (u : Url) : List String :=
  [unanswered u, "client error (Connect)", "tcp connect error", "Connection refused (os error 111)"]

/-- Make a request, and say what it failed for. -/
def request (r : Outgoing) (noAnswer : List String → TransportFailure)
    (error : Nat → TransportFailure) : Requests (Except TransportFailure Unit) :=
  .ask r fun
    | .failed causes => .done (.error (noAnswer causes))
    | .answered code => .done (if isErrorCode code then .error (error code) else .ok ())

/-- Ask whether the host is there. -/
def health (base : String) : Requests (Except TransportFailure Unit) :=
  request healthRequest (.unreachable base) .unhealthy

/-- Post one frame. -/
def send (frame : String) : Requests (Except TransportFailure Unit) :=
  request (messageRequest frame) .notPosted .rejected

/-- Open the stream of events. -/
def openEvents : Requests (Except TransportFailure Unit) :=
  request eventsRequest .notOpened fun code =>
    if code = 409 then .alreadyAttached else .refused code

/-- Post frames in order. A frame that cannot be posted is lost. -/
def forward : List String → Requests Unit
  | [] => .done ()
  | f :: fs => (send f).bind fun _ => forward fs

/-- Connect a view: see that the host is there, and open its stream. -/
def connect (base : String) : Requests (Except TransportFailure Unit) :=
  (health base).bind fun
    | .error e => .done (.error e)
    | .ok () => openEvents

end Transport

namespace EventStream

/-- The frames among events: the data of those that have the default name. -/
def frames (events : List Event) : List String :=
  (events.filter fun e => e.name == defaultName).map fun e => String.ofList e.data

end EventStream
end PublishDesk
