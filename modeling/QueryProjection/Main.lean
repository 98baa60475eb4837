import QueryProjection.Command.Help

/-!
# The program

Hands the arguments and the standard input to the command.  What the command has written
goes to the standard output, and so does its help; for that the input is not read.  Warnings and
complaints go to the standard error; the exit code is 2 if the arguments are at fault and 1 if
anything else is.
-/

open QueryProjection

/-- All text that is left to read, behind the lines read before. -/
partial def readRest (input : IO.FS.Stream) (before : String) : IO String := do
  let line ← input.getLine
  if line.isEmpty then return before else readRest input (before ++ line)

/-- Passes on what a run has to say, and gives the exit code. -/
def conclude (run : Command.Run) : IO UInt32 := do
  for notice in run.notices do
    if notice.level = .warning then (← IO.getStderr).putStrLn notice.message
  match run.ending with
  | .written output =>
      (← IO.getStdout).putStr output
      return 0
  | .helped =>
      (← IO.getStdout).putStr Command.help
      return 0
  | .misused found =>
      (← IO.getStderr).putStrLn found.report
      return 2
  | .failed fault =>
      (← IO.getStderr).putStrLn fault.message
      return 1

def main (arguments : List String) : IO UInt32 := do
  match Command.Settings.ofArguments arguments with
  | .error _ => conclude (Command.run arguments "")
  | .ok _ => conclude (Command.run arguments (← readRest (← IO.getStdin) ""))
