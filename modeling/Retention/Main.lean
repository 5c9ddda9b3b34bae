import Retention.CommandLine.Perform
/-!
# Main — the program
-/
open Retention.CommandLine in
/-- Runs the program, prints what it has to say, and ends with its exit code. -/
def main (arguments : List String) : IO UInt32 := do
  let transcript := perform arguments
  (← IO.getStdout).putStr transcript.out
  (← IO.getStderr).putStr transcript.err
  match transcript.ending with
  | .exited code => return code.toUInt32
  | .crashed kind message =>
    (← IO.getStderr).putStrLn (kind ++ ": " ++ message)
    return 1
