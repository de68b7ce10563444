import PublishDesk.Text.Digits
import PublishDesk.Text.Utf8

/-!
# URLs

A URL names a scheme and, depending on it, a host and a path. Its parts are held as they are
written, with all characters that may not stand there percent-encoded.
-/

namespace PublishDesk

structure Url where
  scheme : List Char
  username : List Char := []
  password : List Char := []
  /-- The host, if the URL names one; it may be empty. -/
  host : Option (List Char) := none
  /-- The port, unless it is the one that belongs to the scheme. -/
  port : Option Nat := none
  path : List Char := []
  query : Option (List Char) := none
  fragment : Option (List Char) := none
deriving DecidableEq, Repr

/-- Why a text is no URL. -/
inductive UrlError where
  | noScheme
  | emptyHost
  | invalidDomain
  | invalidCharacter
  | invalidDotted
  | invalidGrouped
  | invalidPort
deriving DecidableEq, Repr

def UrlError.message : UrlError → String
  | .noScheme => "relative URL without a base"
  | .emptyHost => "empty host"
  | .invalidDomain => "invalid international domain name"
  | .invalidCharacter => "invalid domain character"
  | .invalidDotted => "invalid IPv4 address"
  | .invalidGrouped => "invalid IPv6 address"
  | .invalidPort => "invalid port number"

namespace Url

/-! ## Schemes -/

/-- The schemes whose URLs have a host, with the ports that belong to them. -/
def hostSchemes : List (String × Nat) :=
  [("http", 80), ("https", 443), ("ws", 80), ("wss", 443), ("ftp", 21)]

/-- The port that belongs to a scheme. -/
def defaultPort? (scheme : List Char) : Option Nat := hostSchemes.lookup (String.ofList scheme)

/-- Whether a scheme is that of files. -/
def isFile (scheme : List Char) : Bool := scheme == "file".toList

/-- Whether backslashes separate the segments of a path, and hosts are names of domains. -/
def isSpecial (scheme : List Char) : Bool := isFile scheme || (defaultPort? scheme).isSome

/-! ## Percent-encoding -/

/-- The characters that are encoded wherever they stand. -/
def isControl (c : Char) : Bool := c < ' ' || '~' < c

def isEncodedInFragment (c : Char) : Bool := isControl c || " \"<>`".toList.contains c

/-- In a query; where hosts are names of domains, the apostrophe is encoded too. -/
def isEncodedInQuery (special : Bool) (c : Char) : Bool :=
  isControl c || " \"#<>".toList.contains c || (special && c == '\'')

def isEncodedInPath (c : Char) : Bool := isEncodedInFragment c || "#?\x7b\x7d".toList.contains c

def isEncodedInUser (c : Char) : Bool := isEncodedInPath c || "/:;=@[\\]^|".toList.contains c

/-- One byte as a percent sign and two digits. -/
def encodeByte (b : UInt8) : List Char :=
  ['%', (Nat.digitChar (b.toNat / 16)).toUpper, (Nat.digitChar (b.toNat % 16)).toUpper]

/-- Write the characters that a test picks as percent signs and digits. -/
def percentEncode (isEncoded : Char → Bool) (cs : List Char) : List Char :=
  cs.flatMap fun c => if isEncoded c then (Text.Utf8.encodeChar c).flatMap encodeByte else [c]

/-! ## Written form -/

/-- The name and the password in front of a host. -/
def credentials (u : Url) : List Char :=
  if u.username.isEmpty && u.password.isEmpty then []
  else u.username ++ (if u.password.isEmpty then [] else ':' :: u.password) ++ ['@']

/-- The host with all that belongs to it. Without a host, a path that begins with two slashes gets a
segment in front that means nothing. -/
def authority (u : Url) : List Char :=
  match u.host with
  | some h =>
    ['/', '/'] ++ u.credentials ++ h ++ ((u.port.map fun p => ':' :: Nat.toDigits 10 p).getD [])
  | none =>
    if isFile u.scheme then ['/', '/']
    else if ['/', '/'].isPrefixOf u.path then ['/', '.'] else []

def text (u : Url) : List Char :=
  u.scheme ++ ':' :: u.authority ++ u.path ++ ((u.query.map ('?' :: ·)).getD []) ++
    ((u.fragment.map ('#' :: ·)).getD [])

/-- The URL without name and password. -/
def withoutCredentials (u : Url) : Url := { u with username := [], password := [] }

end Url
end PublishDesk
