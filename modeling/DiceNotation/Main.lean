import DiceNotation.Repl
import DiceNotation.Roller.Chance

/-!
# The program

Reads lines from the standard input until it ends and answers each of them.
-/

namespace DiceNotation.Repl

/-- Answers line by line; input that cannot be read as text ends the program like the end of input. -/
partial def loop (input output errors : IO.FS.Stream) (chance : Chance) : IO Unit := do
  output.putStr prompt
  output.flush
  let line ← try input.getLine catch _ => pure ""
  if !line.isEmpty then
    let (out, chance) := respond line chance
    output.putStr out.answer
    output.flush
    errors.putStr out.error
    loop input output errors chance

end DiceNotation.Repl

/-- Rolls with a seed of its own in every run. -/
def main : IO Unit := do
  let seed ← IO.rand 0 4294967295
  DiceNotation.Repl.loop (← IO.getStdin) (← IO.getStdout) (← IO.getStderr) (.ofSeed seed)
