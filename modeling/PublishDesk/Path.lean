import PublishDesk.Text.Lines

/-!
# Paths

A path is a text of segments with slashes between them. Empty segments and segments `.` mean
nothing, except that a leading `.` stands for the current directory; `..` is kept as it is. A path
that starts with a slash is absolute. The functions here cut the text of a path and leave what
remains as it was written.
-/

namespace PublishDesk

/-- The text of a path. -/
abbrev Path := List Char

namespace Path

def slash : Char := '/'

/-- The parts of a path between its slashes. -/
def segments (p : Path) : List (List Char) := Text.splitOn slash p

def ofSegments (ss : List (List Char)) : Path := Text.joinWith [slash] ss

def isAbsolute (p : Path) : Bool := p.head? == some slash

/-- Whether a segment that is not the first one means something. -/
def isSignificant (s : List Char) : Bool := !s.isEmpty && s != ['.']

/-- Drop the segments at the end that mean nothing. The first segment means something unless it is
empty. -/
def dropInsignificant : List (List Char) → List (List Char)
  | [] => []
  | first :: rest =>
    let kept := (rest.reverse.dropWhile fun s => !isSignificant s).reverse
    if kept.isEmpty && first.isEmpty then [] else first :: kept

/-- The segments up to the last one that means something. -/
def core (p : Path) : List (List Char) := dropInsignificant (segments p)

/-- The path without the segments at its start that mean nothing. -/
def dropLeading (p : Path) : Path :=
  ofSegments ((segments p).dropWhile fun s => !isSignificant s)

/-- The path without its last component; the root and the empty path have none. -/
def parent? (p : Path) : Option Path :=
  match core p with
  | [] => none
  | c =>
    let rest := dropInsignificant c.dropLast
    some (if rest.isEmpty && isAbsolute p then [slash] else ofSegments rest)

/-- The last component, if it is the name of a file or a directory. -/
def fileName? (p : Path) : Option (List Char) :=
  match (core p).getLast? with
  | none => none
  | some name => if name = ['.'] ∨ name = ['.', '.'] then none else some name

/-- The path of a relative path below a directory. -/
def join (dir p : Path) : Path :=
  if isAbsolute p then p
  else if dir.isEmpty || dir.getLast? == some slash then dir ++ p
  else dir ++ slash :: p

/-- A name without what follows its last dot; a dot at the start does not count. -/
def stem (name : List Char) : List Char :=
  match (name.reverse.dropWhile (· != '.')).drop 1 with
  | [] => name
  | before => before.reverse

/-- The path with another extension of its file name. -/
def withExtension (p : Path) (extension : List Char) : Path :=
  match fileName? p with
  | none => p
  | some name => ofSegments ((core p).dropLast ++ [stem name ++ '.' :: extension])

end Path

/-- The directory in which the worker for a site is started: the one that holds the site's
configuration file, or the current one where a path has no parent. -/
def workerDirectory (siteConfig : Path) : Path := (Path.parent? siteConfig).getD ['.']

end PublishDesk
