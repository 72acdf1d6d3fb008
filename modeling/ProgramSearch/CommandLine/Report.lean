import ProgramSearch.Arithmetic.Basic
import ProgramSearch.CommandLine.Arguments
import ProgramSearch.Grammar.Text
import ProgramSearch.Query
import ProgramSearch.Search
import ProgramSearch.Tree.Text

namespace ProgramSearch
namespace CommandLine

/-!
# What a command prints

A command ends with a report: the text for standard output and the exit code.
The code is zero for a success, one for a search without a result and two for a
command line that is refused.
-/

/-- The printed text, the messages for the error stream, and the exit code. -/
structure Report where
  output : String
  messages : List String
  code : UInt8
deriving DecidableEq

namespace Report

def success (output : String) : Report :=
  ⟨output, [], 0⟩

/-- A search that ended without a program says so on standard output. -/
def failure (output : String) : Report :=
  ⟨output, [], 1⟩

/-- A search that could not be carried out prints nothing. -/
def error (error : SynthesisError) : Report :=
  ⟨"", [error.message], 1⟩

def refusal (error : UsageError) : Report :=
  ⟨"", [error.message], 2⟩

/-- Send messages ahead of all others. -/
def withMessages (report : Report) (messages : List String) : Report :=
  { report with messages := messages ++ report.messages }

end Report

/-- Text broken after every line. -/
def lines (texts : List String) : String :=
  String.join (texts.map (· ++ "\n"))

/-- Numbers in brackets, separated by commas. -/
def listText (values : List Int64) : String :=
  "[" ++ ", ".intercalate (values.map literalText) ++ "]"

/-- A number with blanks before it up to a width of six. -/
def paddedNumber (number : Nat) : String :=
  let digits := number.repr
  String.ofList (List.replicate (6 - digits.length) ' ') ++ digits

/-- A candidate behind its number. -/
def candidateLine (grammar : Grammar) (number : Nat) (candidate : Tree Int64) : String :=
  paddedNumber number ++ "  " ++ candidate.text grammar

/-- The candidates with their numbers, one on a line. -/
def candidateLines (grammar : Grammar) (candidates : List (Tree Int64)) : List String :=
  candidates.zipIdx.map fun (candidate, number) => candidateLine grammar number candidate

/-- The program that was found, one node on a line, and what it was found for. -/
def foundLines (grammar : Grammar) (sample : Sample Int64) (program : Tree Int64)
    (explored : Nat) : List String :=
  [program.indentedText grammar,
    "inputs   = " ++ listText sample.inputs,
    "output   = " ++ literalText sample.output,
    "explored = " ++ explored.repr]

/-- The line for a search that has ended without a program. -/
def exhaustedLine (explored : Nat) (reason : StopReason) : String :=
  "no program found after " ++ explored.repr ++ " sketch(es) (" ++ reason.name ++ ")"

/-- The report on a finished search. -/
def outcomeReport (grammar : Grammar) (sample : Sample Int64) : Outcome Int64 → Report
  | .found program explored => .success (lines (foundLines grammar sample program explored))
  | .exhausted explored reason => .failure (lines [exhaustedLine explored reason])

/-- Search for an arithmetic program, or list the first candidates.  Parameters are
part of the language exactly when there are inputs. -/
def runArithmetic (budget : Nat) (output : Int64) (inputs constants : List Int64)
    (enumerate : Option Nat) : Report :=
  let arithmetic : Arithmetic := ⟨0, constants, !inputs.isEmpty⟩
  let grammar := arithmetic.grammar
  let sample : Sample Int64 := ⟨output, inputs⟩
  match Synthesizer.create arithmetic.language (Budget.ofLimit budget) with
  | .error error => .error error
  | .ok synthesizer =>
      match enumerate with
      | some count =>
          let (candidates, _) := (synthesizer.enumerate sample).first Signals.none count
          .success (lines (candidateLines grammar candidates))
      | none =>
          match synthesizer.synthesize Signals.none sample with
          | .error error => .error error
          | .ok outcome => outcomeReport grammar sample outcome

/-- Carry out a command within a budget. -/
def Command.run (budget : Nat) : Command → Report
  | .arithmetic output inputs constants enumerate =>
      runArithmetic budget output inputs constants enumerate
  | .query => .success (lines [(Query.grammar 0).text])

/-- What is said, if more messages are wanted, before anything is printed: that the program has
started, and the grammar that it is about to search. -/
def Command.notices : Command → List String
  | .arithmetic _ inputs constants _ =>
      ["Started",
        "Grammar:\n" ++ (Arithmetic.grammar ⟨0, constants, !inputs.isEmpty⟩).text]
  | .query => ["Started"]

/-- Carry out what a command line asks for. -/
def Invocation.run (invocation : Invocation) : Report :=
  let report := invocation.command.run invocation.budget
  if invocation.verbosity = 0 then report
  else report.withMessages invocation.command.notices

/-- The report on a command line given as words. -/
def report (words : List String) : Report :=
  match read words with
  | .error error => .refusal error
  | .ok invocation => invocation.run

end CommandLine
end ProgramSearch
