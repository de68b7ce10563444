import PublishDesk.FileSystem.Tree

/-!
# Access to files

What a program does with files: it looks at them and changes them.
-/

namespace PublishDesk

inductive Access where
  | change (call : WriteCall)
  /-- Whether something stands at a path. -/
  | isThere (path : Path)
  /-- What a file holds. -/
  | content (path : Path)
  /-- The path without links and without `.` and `..`, from the root of the file system. -/
  | canonical (path : Path)
  /-- The tree of files at a path, links not followed. -/
  | survey (path : Path)
deriving DecidableEq, Repr

/-- The answer to an access. -/
@[reducible] def Access.Answer : Access → Type
  | .change _ => Except FileError Unit
  | .isThere _ => Bool
  | .content _ => Except FileError (List UInt8)
  | .canonical _ => Option Path
  | .survey _ => Option Tree

namespace Tree

/-- The route that a path stands for in a tree whose top stands at the path `root`. A path to
elsewhere has none, nor has the empty path. -/
def routeAt (root p : Path) : Except FileError Route :=
  let below := root ++ [Path.slash]
  if p.isEmpty then .error .notFound
  else if p = root then .ok ⟨[], true⟩
  else if below.isPrefixOf p then .ok (Route.ofBytes (Text.Utf8.encode (p.drop below.length)))
  else if p.isAbsolute then .error .notFound
  else .ok (Route.ofBytes (Text.Utf8.encode p))

/-- The tree after a change. -/
def change (root : Path) (top : Tree) : WriteCall → Except FileError Tree
  | .createDirectory p =>
    if p.isEmpty then .ok top else do top.createDirectory (← routeAt root p).names
  | .write p text => do top.write (← routeAt root p) (Text.Utf8.encode text)
  | .rename p q => do top.rename (← routeAt root p) (← routeAt root q)

/-- The way to a path, links followed. -/
def reach (root : Path) (top : Tree) (p : Path) : Except FileError Way := do
  top.follow true (← routeAt root p)

/-- Answer an access to a tree whose top stands at the path `root`. A change that fails changes
nothing. -/
def access (root : Path) : (a : Access) → Tree → a.Answer × Tree
  | .change c, top => match change root top c with
    | .ok t => (.ok (), t)
    | .error e => (.error e, top)
  | .isThere p, top => ((reach root top p).isOk, top)
  | .content p, top => (routeAt root p >>= fun r => top.content r, top)
  | .canonical p, top =>
    ((reach root top p).toOption.map fun w =>
      Text.joinWith [Path.slash] (root :: w.names.map Text.Utf8.decodeLossy), top)
  | .survey p, top => ((routeAt root p).toOption.bind top.survey?, top)

end Tree

/-! ## Failures -/

/-- How a change fails. -/
structure WriteFault where
  /-- How much of the change was made: so many directories on the way, or so many bytes of the text.
  Without a number it was not begun. -/
  made : Option Nat
  cause : FileError
deriving DecidableEq, Repr

namespace Tree

/-- The tree after a change of which so much has been made. A file is moved at once or not at
all. -/
def changePart (root : Path) (top : Tree) (made : Nat) : WriteCall → Except FileError Tree
  | .createDirectory p =>
    if p.isEmpty then .ok top else do top.createDirectory ((← routeAt root p).names.take made)
  | .write p text => do top.write (← routeAt root p) ((Text.Utf8.encode text).take made)
  | .rename _ _ => .ok top

/-- Answer a change where changes may fail: the faults say which do, and how. -/
def changeOrFail (root : Path) (faults : WriteCall → Option WriteFault) (c : WriteCall)
    (top : Tree) : Except FileError Unit × Tree :=
  match faults c with
  | none => access root (.change c) top
  | some fault =>
    (.error fault.cause, (fault.made.bind fun n => (changePart root top n c).toOption).getD top)

end Tree
end PublishDesk
