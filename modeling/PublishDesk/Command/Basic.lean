import PublishDesk.Program

/-!
# External commands

A command names a program and its arguments. Running it either fails to start or gives what the
program wrote and whether it succeeded.
-/

namespace PublishDesk

structure Command where
  program : String
  arguments : List String
deriving DecidableEq, Repr

/-- The words of a command. -/
def Command.words (c : Command) : List String := c.program :: c.arguments

/-- The words of a command with spaces between them. -/
def Command.line (c : Command) : String := String.intercalate " " c.words

/-- Why a command did not start. -/
inductive StartFailure where
  /-- There is no such program, or no such directory to run it in. -/
  | notFound
  /-- What the name stands for cannot be executed. -/
  | notExecutable
  /-- A name, an argument or the directory holds U+0000. -/
  | zeroCharacter
  /-- There is no program name. -/
  | emptyCommand
deriving DecidableEq, Repr

def StartFailure.message : StartFailure → String
  | .notFound => "No such file or directory (os error 2)"
  | .notExecutable => "Permission denied (os error 13)"
  | .zeroCharacter => "nul byte found in provided data"
  | .emptyCommand => "empty worker command"

/-- How a program ended: with a code, or by a signal. -/
inductive ExitStatus where
  | code (code : UInt8)
  | signal
deriving DecidableEq, Repr

/-- The code of a program that was not ended by a signal. -/
def ExitStatus.code? : ExitStatus → Option UInt8
  | .code c => some c
  | .signal => none

/-- What a program that has ended leaves behind. -/
structure Finished where
  output : List UInt8 := []
  errors : List UInt8 := []
  status : ExitStatus := .code 0
deriving DecidableEq, Repr

/-- A program that ends with code 0 has succeeded. -/
def Finished.succeeded (f : Finished) : Bool := f.status == .code 0

/-- A program that runs external commands. -/
abbrev Commands := Program Command fun _ => Except StartFailure Finished

/-- Run one command. -/
def Command.run (c : Command) : Commands (Except StartFailure Finished) := .ask c .done

/-- Whether a word may be handed to a program. -/
def hasZeroCharacter (word : String) : Bool := word.toList.any (· == '\x00')

end PublishDesk
