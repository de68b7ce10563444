import PublishDesk.Command.Basic
import PublishDesk.Path

/-!
# Where workers are started

A command can be started if its directory is there and its first word names a program.
-/

namespace PublishDesk

/-- The directories and the programs that there are. -/
structure Environment where
  isDirectory : Path → Bool
  isProgram : String → Bool

namespace Environment

/-- What keeps a command from being started in a directory, if anything. -/
def obstacle? (e : Environment) (directory : Path) (words : List String) : Option StartFailure :=
  match words with
  | [] => some .emptyCommand
  | program :: _ =>
    if words.any hasZeroCharacter || directory.any (· == '\x00') then some .zeroCharacter
    else if !e.isDirectory directory then some .notFound
    else if e.isProgram program then none
    else if e.isDirectory program.toList then some .notExecutable
    else some .notFound

end Environment
end PublishDesk
