import PublishDesk.Url.Reader

/-!
# Targets of requests

A request asks for a path, perhaps followed by a query. Its target may also be a whole URL, the name
of a host or an asterisk; the latter two have no path.
-/

namespace PublishDesk.Endpoint.Target

/-- Whether a character may stand in a path. -/
def isInPath (c : Char) : Bool := ' ' < c && !"<>`".toList.contains c

/-- Whether a character may stand in a query. -/
def isInQuery (c : Char) : Bool := ' ' < c && !"<>\"".toList.contains c

/-- The path of a target that begins with one, without its query. -/
def readPath? (cs : List Char) : Option (List Char) :=
  let path := cs.takeWhile fun c => c != '?' && c != '#'
  let query := (cs.drop path.length).takeWhile (· != '#')
  if path.all isInPath && query.all isInQuery then some path else none

/-- Whether a character may stand in the name of a host, or in the credentials in front of it. -/
def isInHost (c : Char) : Bool := c.isAlphanum || "!$&'()*+,-.:;=_~".toList.contains c

/-- Whether a host may be named so: there is at most one colon outside of brackets. -/
def isHost : List Char → Bool
  | '[' :: cs =>
    cs.contains ']' && ((cs.takeWhile (· != ']')).all fun c => isInHost c || c == '%') &&
      isPlain ((cs.dropWhile (· != ']')).drop 1)
  | cs => isPlain cs
where
  isPlain (cs : List Char) : Bool := cs.all isInHost && (cs.filter (· == ':')).length ≤ 1

/-- Whether a text names a host. -/
def isAuthority (cs : List Char) : Bool :=
  match Url.cutAtLast? '@' cs with
  | none => !cs.isEmpty && isHost cs
  | some (user, host) =>
    !host.isEmpty && isHost host && user.all fun c => isInHost c || "@%[]".toList.contains c

/-- The path of a target that begins with the name of a host. -/
def readAfterScheme? (cs : List Char) : Option (List Char) :=
  let host := cs.takeWhile fun c => c != '/' && c != '?' && c != '#'
  if isAuthority host then
    (readPath? (cs.drop host.length)).map fun p => if p.isEmpty then ['/'] else p
  else none

/-- The path that a target asks for; none if the text is no target. -/
def path? (target : String) : Option String :=
  (match target.toList with
    | [] => none
    | ['*'] => some ['*']
    | '/' :: cs => readPath? ('/' :: cs)
    | cs =>
      match cs.dropWhile Url.isInScheme with
      | ':' :: '/' :: '/' :: rest => readAfterScheme? rest
      | _ => if isAuthority cs then some [] else none).map String.ofList

/-- Whether a text may name a method. -/
def isMethod (method : String) : Bool :=
  !method.isEmpty && method.toList.all fun c =>
    c.isAlphanum || "!#$%&'*+-.^_`|~".toList.contains c

end PublishDesk.Endpoint.Target
