import FilterQuery.Command

/-!
The command line: arguments and standard input in, a report out.
-/
open FilterQuery

def main (args : List String) : IO UInt32 := do
  match Command.ofArguments? args with
  | none =>
    (← IO.getStderr).putStr Command.usage
    return Command.usageExitCode.toUInt32
  | some command =>
    let input ← if command.readsInput then (← IO.getStdin).readToEnd else pure ""
    let report := command.run input
    (← IO.getStdout).putStr report.output
    (← IO.getStderr).putStr report.errors
    return report.exitCode.toUInt32
