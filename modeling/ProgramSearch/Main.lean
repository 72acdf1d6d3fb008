import ProgramSearch.CommandLine.Report

/-!
# The program

It reports on its command line: the text goes to standard output, messages to the
error stream, and the code to the caller.
-/

def main (words : List String) : IO UInt32 := do
  let report := ProgramSearch.CommandLine.report words
  (← IO.getStdout).putStr report.output
  for message in report.messages do
    (← IO.getStderr).putStrLn message
  return report.code.toUInt32
