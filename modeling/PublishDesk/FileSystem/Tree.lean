import PublishDesk.FileSystem.Call
import PublishDesk.Text.Utf8

/-!
# Trees of files

A tree holds files, directories and symbolic links. Routes are followed from its top, which stands
for the current directory; what lies above the top or at an absolute path is not there.
-/

namespace PublishDesk

/-- The bytes of a file name. -/
abbrev FileName := List UInt8

/-- A tree of files. A link leads to a path, taken from the directory that holds it. -/
inductive Tree where
  | file (content : List UInt8)
  | link (target : List UInt8)
  | directory (entries : List (FileName × Tree))

/-- A path in bytes, cut into names. A slash at its end asks for a directory (`closed`). -/
structure Route where
  names : List FileName
  closed : Bool := false
deriving DecidableEq, Repr

namespace Route

def slash : UInt8 := 0x2f

/-- The name that every directory has for itself. -/
def here : FileName := [0x2e]

/-- The name that every directory has for the one that holds it. -/
def above : FileName := [0x2e, 0x2e]

def ofBytes (path : List UInt8) : Route :=
  ⟨(Text.splitOn slash path).filter (!·.isEmpty), path.getLast? == some slash⟩

/-- The route to the directory that holds the last name. -/
def parent (r : Route) : Route := ⟨r.names.dropLast, true⟩

end Route

/-- A way from the top of a tree: the names passed and what they stand for, latest first. -/
abbrev Way := List (FileName × Tree)

/-- Where a way leads. -/
def Way.end (top : Tree) (w : Way) : Tree := (w.head?.map (·.2)).getD top

/-- The names on a way, from the top. -/
def Way.names (w : Way) : List FileName := (w.map (·.1)).reverse

/-- Where a route has led. -/
structure Arrival where
  way : Way
  /-- The last name of the route, if the directory at the end of the way does not have it. -/
  missing : Option FileName
  /-- Whether the route asks for a directory. -/
  closed : Bool
  /-- How many more links may be followed. -/
  links : Nat

namespace Tree

def isDirectory : Tree → Bool
  | .directory _ => true
  | _ => false

/-- What a directory has under a name. -/
def child? (name : FileName) : Tree → Option Tree
  | .directory entries => entries.lookup name
  | _ => none

/-- As many links are followed on one route. -/
def maxLinks : Nat := 40

/-- A name has at most so many bytes. -/
def maxNameLength : Nat := 255

/-- Follow names. Links on the way are followed; a link at the end is followed only if `last` says
so or a directory is asked for. -/
def walk (top : Tree) (last : Bool) (links : Nat) (w : Way) (closed : Bool) :
    List FileName → Except FileError Arrival
  | [] => .ok ⟨w, none, closed, links⟩
  | n :: ns =>
    if !(w.end top).isDirectory then .error .notDirectory
    else if n = Route.here then walk top last links w closed ns
    else if n = Route.above then
      match w with
      | [] => .error .notFound
      | _ :: up => walk top last links up closed ns
    else if maxNameLength < n.length then .error .nameTooLong
    else
      match (w.end top).child? n with
      | none => if ns.isEmpty then .ok ⟨w, some n, closed, links⟩ else .error .notFound
      | some (.link target) =>
        if ns.isEmpty && !last && !closed then .ok ⟨(n, .link target) :: w, none, closed, links⟩
        else
          match links with
          | 0 => .error .tooManyLinks
          | links + 1 =>
            if target.head? = some Route.slash then .error .notFound
            else
              let r := Route.ofBytes target
              walk top last links w (closed || (ns.isEmpty && r.closed)) (r.names ++ ns)
      | some t => walk top last links ((n, t) :: w) closed ns
termination_by ns => (links, ns.length)

theorem walk_links {top : Tree} {last closed : Bool} {links : Nat} {w : Way} {ns : List FileName}
    {a : Arrival} (h : walk top last links w closed ns = .ok a) : a.links ≤ links := by
  fun_induction walk top last links w closed ns <;> grind

/-- Where a route leads from the top. -/
def arrive (top : Tree) (last : Bool) (r : Route) : Except FileError Arrival :=
  walk top last maxLinks [] r.closed r.names

/-- The way to what stands at the end of a route. -/
def follow (top : Tree) (last : Bool) (r : Route) : Except FileError Way := do
  let a ← top.arrive last r
  if a.missing.isSome then throw .notFound
  else if a.closed && !(a.way.end top).isDirectory then throw .notDirectory
  else return a.way

/-- What stands at the end of a route. -/
def at? (top : Tree) (last : Bool) (r : Route) : Option Tree :=
  (top.follow last r).toOption.map (Way.end top)

/-- What is searched from the end of a route. That may be a link to a directory; everything below
it is taken as it is. -/
def survey? (top : Tree) (r : Route) : Option Tree :=
  match top.at? false r with
  | some (.link _) => (top.at? true r).filter isDirectory
  | found => found

/-! ## Changes -/

/-- Put something in an entry of a directory. -/
def setEntry (name : FileName) (t : Tree) : List (FileName × Tree) → List (FileName × Tree)
  | [] => [(name, t)]
  | e :: es => if e.1 = name then (name, t) :: es else e :: setEntry name t es

/-- Put something at the end of names from the top, none of which is a link. -/
def set (leaf : Tree) : List FileName → Tree → Tree
  | [], _ => leaf
  | n :: ns, .directory es =>
    .directory (setEntry n (set leaf ns ((es.lookup n).getD (.directory []))) es)
  | _ :: _, t => t

/-- Remove what stands at the end of names from the top, none of which is a link. -/
def remove : List FileName → Tree → Tree
  | [], t => t
  | [n], .directory es => .directory (es.filter fun e => e.1 != n)
  | n :: ns, .directory es => match es.lookup n with
    | none => .directory es
    | some t => .directory (setEntry n (remove ns t) es)
  | _ :: _, t => t

/-- Give a directory a new entry. The names of a directory for itself and for the one above are
always there. -/
def add (top : Tree) (leaf : Tree) (r : Route) : Except FileError Tree := do
  let w ← top.follow true r.parent
  match r.names.getLast? with
  | none => throw .alreadyExists
  | some n =>
    if n = Route.here ∨ n = Route.above ∨ ((w.end top).child? n).isSome then throw .alreadyExists
    else if maxNameLength < n.length then throw .nameTooLong
    else return set leaf (w.names ++ [n]) top

/-- Nothing is wrong with a directory that cannot be created if it is there already. -/
def orThere (names : List FileName) (top : Tree) (e : FileError) : Except FileError Tree :=
  if (top.at? true ⟨names, false⟩).any isDirectory then .ok top else .error e

/-- Create a directory and all directories above it, given the names on the way to it. -/
def createDirectory (names : List FileName) (top : Tree) : Except FileError Tree :=
  match top.add (.directory []) ⟨names, false⟩ with
  | .ok t => .ok t
  | .error e =>
    if _h : e = .notFound ∧ names ≠ [] then do
      let t ← createDirectory names.dropLast top
      match t.add (.directory []) ⟨names, false⟩ with
      | .ok t => return t
      | .error e => orThere names t e
    else orThere names top e
termination_by names.length
decreasing_by
  have := List.length_pos_iff.2 _h.2
  simp only [List.length_dropLast]
  omega

/-- Create a file or replace what it holds. Where the last name is that of a link, the file is the
one that the link leads to. -/
def write (r : Route) (content : List UInt8) (top : Tree) : Except FileError Tree := do
  let a ← top.arrive true r
  if a.closed || (a.missing.isNone && (a.way.end top).isDirectory) then throw .isDirectory
  else return set (.file content) (a.way.names ++ a.missing.toList) top

/-- The failure to move something to a name that every directory has for itself or for the one
above. -/
def busy : FileError := .other "Device or resource busy (os error 16)"

/-- Move a file or a link. A directory is not replaced. -/
def rename (r newRoute : Route) (top : Tree) : Except FileError Tree := do
  let w ← top.follow false r
  let place ← top.follow true newRoute.parent
  match newRoute.names.getLast? with
  | none => throw .isDirectory
  | some n =>
    if n = Route.here ∨ n = Route.above then throw busy
    else if maxNameLength < n.length then throw .nameTooLong
    else if newRoute.closed then throw .notDirectory
    else if ((place.end top).child? n).any isDirectory then throw .isDirectory
    else return set (w.end top) (place.names ++ [n]) (remove w.names top)

/-! ## Contents -/

/-- What the file at the end of a route holds. -/
def content (r : Route) (top : Tree) : Except FileError (List UInt8) := do
  let w ← top.follow true r
  match w.end top with
  | .file content => return content
  | _ => throw .isDirectory

/-- Where a link in the directory at the end of a way leads. -/
def pass (top : Tree) (links : Nat) (w : Way) (target : List UInt8) : Except FileError Arrival :=
  if target.head? = some Route.slash then .error .notFound
  else
    let r := Route.ofBytes target
    walk top true links w r.closed r.names

theorem pass_links {top : Tree} {links : Nat} {w : Way} {target : List UInt8} {a : Arrival}
    (h : pass top links w target = .ok a) : a.links ≤ links := by
  unfold pass at h
  split at h
  · simp at h
  · exact walk_links h

/-- The names below a directory of everything that is neither a directory nor a link to one. What
links lead to is listed below them, as long as the links on the way may be followed. -/
def filesIn (top : Tree) (links : Nat) (w : Way) :
    List (FileName × Tree) → List (List FileName)
  | [] => []
  | (n, .directory es) :: rest =>
    (filesIn top links ((n, .directory es) :: w) es).map (n :: ·) ++ filesIn top links w rest
  | (n, .file _) :: rest => [n] :: filesIn top links w rest
  | (n, .link target) :: rest =>
    (match links with
      | 0 => [[n]]
      | left + 1 =>
        match _h : top.pass left w target with
        | .error _ => [[n]]
        | .ok a =>
          match a.missing, a.way.end top with
          | none, .directory es => (filesIn top a.links a.way es).map (n :: ·)
          | _, _ => [[n]]) ++ filesIn top links w rest
termination_by es => (links, sizeOf es)
decreasing_by
  all_goals try have := pass_links _h
  all_goals simp_wf
  all_goals grind

/-- The paths of all files, as names from the top. -/
def files (top : Tree) : List (List FileName) :=
  match top with
  | .directory es => filesIn top maxLinks [] es
  | _ => [[]]

end Tree
end PublishDesk
