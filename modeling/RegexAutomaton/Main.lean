import RegexAutomaton.CommandLine

/-!
# The program

Hands the arguments to the library, writes what it answers, and exits with its code.
-/

set_option autoImplicit false

open RegexAutomaton in
/-- Answers the question on the command line. -/
def main (args : List String) : IO UInt32 := do
  let report := CommandLine.run (args.map CommandLine.Argument.ofText)
  (← IO.getStdout).putStr report.stdout
  (← IO.getStderr).putStr report.stderr
  return report.exitStatus.toUInt32
