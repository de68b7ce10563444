import PublishDesk.FileSystem.Tree
import PublishDesk.Path

/-!
# Finding the site

The site is marked by a file of a given name somewhere below the workspace. It counts only if it is
the only one: with none or several the workspace has no site. Hidden directories, directories of
build products and directories whose names are not UTF-8 are not searched, and symbolic links are
neither files nor followed.
-/

namespace PublishDesk

namespace Discovery

/-- Directories of build products. -/
def productNames : List String := ["target", "node_modules"]

/-- Whether a directory below the root is left out of the search. -/
def isSkipped (name : FileName) : Bool :=
  match Text.Utf8.decode? name with
  | none => true
  | some cs => cs.head? == some '.' || productNames.any (·.toList == cs)

mutual

/-- The paths, as lists of names, of the files called `name` at most `depth` levels below a tree
whose own path is `path`, latest name first. -/
def candidates (name : FileName) (depth : Nat) (path : List FileName) : Tree → List (List FileName)
  | .file _ => if path.head? = some name then [path] else []
  | .link _ => []
  | .directory entries => match depth with
    | 0 => []
    | depth + 1 => candidatesIn name depth path entries

def candidatesIn (name : FileName) (depth : Nat) (path : List FileName) :
    List (FileName × Tree) → List (List FileName)
  | [] => []
  | (n, .directory es) :: rest =>
    (if isSkipped n then [] else candidates name depth (n :: path) (.directory es)) ++
      candidatesIn name depth path rest
  | (n, t) :: rest => candidates name depth (n :: path) t ++ candidatesIn name depth path rest

end

/-- The names on the way from a root to the only candidate below it. The root is itself a
candidate if it is a file called `name`. -/
def find? (name : FileName) (maxDepth : Nat) (rootName : FileName) (root : Tree) :
    Option (List FileName) :=
  match candidates name maxDepth [rootName] root with
  | [path] => some path.reverse.tail
  | _ => none

end Discovery

/-! ## Searching from a path -/

/-- Find the site below a root whose route is known. The result is the way from the root. -/
def Discovery.findFrom? (root : Route) (name : FileName) (maxDepth : Nat) (t : Tree) :
    Option (List FileName) :=
  find? name maxDepth (root.names.getLast?.getD []) t

/-- Find the site below a root given as a route from the top of a tree. -/
def Discovery.search? (top : Tree) (root : Route) (name : FileName) (maxDepth : Nat) :
    Option (List FileName) :=
  (top.survey? root).bind (findFrom? root name maxDepth)

/-- The path of a site found on the way from a root: the path of the root as it was written, and
the names of the way. -/
def Discovery.sitePath (root : Path) (way : List FileName) : Path :=
  way.foldl (fun p n => Path.join p (Text.Utf8.decodeLossy n)) root

end PublishDesk
