import PublishDesk.Command.Basic

/-!
# Scripted commands

A script answers commands with prepared results, in order; when they are used up, every command
succeeds and writes nothing. The commands that started are recorded.
-/

namespace PublishDesk

structure Script where
  results : List Finished
  /-- Whether the directory in which the commands are run exists. -/
  inDirectory : Bool := true
  /-- The commands that have started, in order. -/
  started : List Command := []

/-- Run a command by the script. A command that cannot be started takes no result. -/
def Script.answer (c : Command) (s : Script) : Except StartFailure Finished × Script :=
  if c.words.any hasZeroCharacter then (.error .zeroCharacter, s)
  else if !s.inDirectory then (.error .notFound, s)
  else (.ok (s.results.head?.getD {}),
    { s with results := s.results.tail, started := s.started ++ [c] })

/-- Run a program whose commands are answered by a script. -/
def Script.perform {α : Type} (p : Commands α) (s : Script) : α × Script := p.run answer s

end PublishDesk
