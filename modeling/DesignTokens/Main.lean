/-
The command line: reads a document from standard input and prints the report
that the first argument names, `resolve` or `normalize`.
-/
import DesignTokens.Report

namespace DesignTokens

/-- The service with a name. -/
def service? : List String → Option (String → Except ReportError Report)
  | ["resolve"] => some Report.resolve
  | ["normalize"] => some Report.normalize
  | _ => none

end DesignTokens

open DesignTokens in
def main (args : List String) : IO UInt32 := do
  match service? args with
  | none =>
    (← IO.getStderr).putStrLn "usage: resolve | normalize"
    return 2
  | some service =>
    let text ← (← IO.getStdin).readToEnd
    let run := Run.ofReport (service text)
    (← IO.getStderr).putStr run.err
    (← IO.getStdout).putStr run.out
    return if run.failed then 1 else 0
