import PublishDesk.Url.Host

/-!
# Reading URLs

A text is read as a URL of its own, not as one that is relative to another. Blanks and controls
around it and line breaks and tabs in it mean nothing.
-/

namespace PublishDesk.Url

/-! ## Parts of the text -/

/-- The text without what means nothing. -/
def significant (cs : List Char) : List Char :=
  let trimmed := ((cs.dropWhile (· ≤ ' ')).reverse.dropWhile (· ≤ ' ')).reverse
  trimmed.filter fun c => c != '\t' && c != '\n' && c != '\r'

/-- The characters of a scheme after its first one. -/
def isInScheme (c : Char) : Bool := c.isAlphanum || ['+', '-', '.'].contains c

/-- The scheme in lower case, and what follows its colon. -/
def scheme? (cs : List Char) : Option (List Char × List Char) :=
  match cs.takeWhile isInScheme, cs.dropWhile isInScheme with
  | c :: name, ':' :: rest => if c.isAlpha then some ((c :: name).map Char.toLower, rest) else none
  | _, _ => none

/-- Whether a character separates the segments of a path. -/
def isSeparator (special : Bool) (c : Char) : Bool := c == '/' || (special && c == '\\')

/-- The text before the last occurrence of a character, and the text behind it. -/
def cutAtLast? (c : Char) (cs : List Char) : Option (List Char × List Char) :=
  if cs.contains c then
    some (((cs.reverse.dropWhile (· != c)).drop 1).reverse,
      (cs.reverse.takeWhile (· != c)).reverse)
  else none

/-- The host and what follows it. A colon in brackets belongs to the host. -/
def cutHost (inBrackets : Bool) : List Char → List Char × List Char
  | [] => ([], [])
  | c :: cs =>
    if c = ':' ∧ !inBrackets then ([], c :: cs)
    else
      let r := cutHost (c == '[' || (inBrackets && c != ']')) cs
      (c :: r.1, r.2)

/-! ## Paths -/

/-- Whether a segment stands for the one that holds it, or for the one above. A dot may be
percent-encoded. -/
def dots (segment : List Char) : Nat :=
  match String.ofList (segment.map Char.toLower) with
  | "." | "%2e" => 1
  | ".." | ".%2e" | "%2e." | "%2e%2e" => 2
  | _ => 0

/-- The segments of a path, latest first, after the next of its segments. -/
def addSegment (done : List (List Char)) (final : Bool) (segment : List Char) :
    List (List Char) :=
  let up := if dots segment = 2 then done.tail else done
  if dots segment = 0 then percentEncode isEncodedInPath segment :: done
  else if final then [] :: up
  else up

/-- The segments of a path, latest first. -/
def addSegments (done : List (List Char)) : List (List Char) → List (List Char)
  | [] => done
  | [s] => addSegment done true s
  | s :: ss => addSegments (addSegment done false s) ss

/-- The path behind its first slash, without segments that stand for others. -/
def readPath (special : Bool) (cs : List Char) : List Char :=
  let cs := if special then cs.map fun c => if c = '\\' then '/' else c else cs
  (addSegments [] (Text.splitOn '/' cs)).reverse.flatMap ('/' :: ·)

/-- The path of a URL with a host. -/
def readPathAfterHost (special : Bool) : List Char → List Char
  | [] => if special then ['/'] else []
  | c :: cs => readPath special (if isSeparator special c then cs else c :: cs)

/-! ## Hosts -/

/-- The port behind its colon, unless it belongs to the scheme. -/
def readPort (scheme ds : List Char) : Except UrlError (Option Nat) :=
  let port := Text.decimalValue ds
  if !ds.all Char.isDigit || 0xffff < port then .error .invalidPort
  else if ds.isEmpty || defaultPort? scheme = some port then .ok none
  else .ok (some port)

/-- The name, the password, and what follows them. -/
def readCredentials (cs : List Char) : List Char × List Char × List Char :=
  match cutAtLast? '@' cs with
  | none => ([], [], cs)
  | some (user, rest) =>
    (percentEncode isEncodedInUser (user.takeWhile (· != ':')),
      percentEncode isEncodedInUser ((user.dropWhile (· != ':')).drop 1), rest)

/-- Read the part of a URL that names its host. -/
def readAuthority (scheme cs : List Char) : Except UrlError Url := do
  let (username, password, rest) := readCredentials cs
  let (name, rest) := cutHost false rest
  if name.isEmpty && (isSpecial scheme || cs.contains '@' || !rest.isEmpty) then throw .emptyHost
  let host ← readHost (isSpecial scheme) name
  let port ← readPort scheme (rest.drop 1)
  return { scheme, username, password, host := some host, port }

/-! ## URLs -/

/-- Read what follows the scheme, up to the query. -/
def readHierarchy (scheme cs : List Char) : Except UrlError Url := do
  let special := isSpecial scheme
  let withHost (cs : List Char) : Except UrlError Url := do
    let u ← readAuthority scheme (cs.takeWhile fun c => !isSeparator special c)
    let rest := cs.dropWhile fun c => !isSeparator special c
    return { u with path := readPathAfterHost special rest }
  if isFile scheme then
    match cs with
    | a :: b :: cs =>
      if isSeparator true a && isSeparator true b then
        let name := cs.takeWhile fun c => !isSeparator true c
        let path := readPathAfterHost true (cs.dropWhile fun c => !isSeparator true c)
        if name.isEmpty then return { scheme, path }
        else
          let host ← readHost true name
          return { scheme, path, host := if host = "localhost".toList then none else some host }
      else return { scheme, path := readPathAfterHost true (a :: b :: cs) }
    | cs => return { scheme, path := readPathAfterHost true cs }
  else if special then withHost (cs.dropWhile (isSeparator true))
  else
    match cs with
    | '/' :: '/' :: cs => withHost cs
    | '/' :: cs => return { scheme, path := readPath false cs }
    | cs => return { scheme, path := percentEncode isControl cs }

/-- Read a text as a URL. -/
def read (cs : List Char) : Except UrlError Url :=
  match scheme? (significant cs) with
  | none => .error .noScheme
  | some (scheme, rest) => do
    let hierarchy := rest.takeWhile fun c => c != '?' && c != '#'
    let rest := rest.drop hierarchy.length
    let fragment := match rest.dropWhile (· != '#') with
      | [] => none
      | _ :: cs => some (percentEncode isEncodedInFragment cs)
    let query := match rest.takeWhile (· != '#') with
      | '?' :: cs => some (percentEncode (isEncodedInQuery (isSpecial scheme)) cs)
      | _ => none
    let u ← readHierarchy scheme hierarchy
    return { u with query, fragment }

end PublishDesk.Url
