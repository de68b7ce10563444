import PublishDesk.Path
import PublishDesk.Program

/-!
# Calls to a file system

Programs ask for files by these calls. A call that changes files may fail at any point; what the
call had done until then depends on who answers it.
-/

namespace PublishDesk

/-- Why a call failed. -/
inductive FileError where
  | notFound
  | alreadyExists
  | notDirectory
  | isDirectory
  | nameTooLong
  | tooManyLinks
  /-- A failure that only its wording is known of. -/
  | other (message : String)
deriving DecidableEq, Repr

def FileError.message : FileError → String
  | .notFound => "No such file or directory (os error 2)"
  | .alreadyExists => "File exists (os error 17)"
  | .notDirectory => "Not a directory (os error 20)"
  | .isDirectory => "Is a directory (os error 21)"
  | .nameTooLong => "File name too long (os error 36)"
  | .tooManyLinks => "Too many levels of symbolic links (os error 40)"
  | .other message => message

/-- A call that changes files. -/
inductive WriteCall where
  /-- Create a directory and all directories above it; it may be there already. -/
  | createDirectory (path : Path)
  /-- Create a file or replace its text. -/
  | write (path : Path) (text : List Char)
  /-- Give a file another path, replacing a file of that path. -/
  | rename (path newPath : Path)
deriving DecidableEq, Repr

/-- A program that changes files. -/
abbrev Writing := Program WriteCall fun _ => Except FileError Unit

end PublishDesk
