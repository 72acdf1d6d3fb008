import ProgramSearch.Enumeration
import ProgramSearch.Grammar.Validity
import ProgramSearch.Language

namespace ProgramSearch

/-!
# Search for a program with a given behaviour

A search evaluates the enumerated candidates one after another.  A candidate is
correct when its value on the sample's inputs is the sample's output.  A fault
merely disqualifies its candidate, and any other error is reported; stepping may
go on after it, since the enumeration has already moved past the candidate.
-/

universe u

variable {V : Type u}

/-- The verdict on one candidate, with its value if it had one. -/
inductive Verdict (V : Type u) where
  | correct (candidate : Tree V)
  | incorrect (candidate : Tree V) (got : Option V)
deriving DecidableEq

/-- Evaluate a candidate on the sample's inputs and compare with its output. -/
def judge [DecidableEq V] (evaluate : Evaluator V) (sample : Sample V) (candidate : Tree V) :
    Except EvalError (Verdict V) :=
  match evaluate candidate ⟨sample.inputs⟩ with
  | .ok (some value) =>
      if value = sample.output then .ok (.correct candidate)
      else .ok (.incorrect candidate (some value))
  | .ok none => .ok (.incorrect candidate none)
  | .error error =>
      if error.isFatal then .error error else .ok (.incorrect candidate none)

/-- An enumeration whose candidates are evaluated as they come. -/
structure Search (V : Type u) where
  evaluate : Evaluator V
  enumeration : Enumeration V

/-- How a synthesis ends: with a program, or without any candidate left. -/
inductive Outcome (V : Type u) where
  | found (program : Tree V) (explored : Nat)
  | exhausted (explored : Nat) (reason : StopReason)
deriving DecidableEq

namespace Search

variable [DecidableEq V]

/-- Judge the next candidate; there is no verdict once the enumeration has ended. -/
def step (signals : Signals) (search : Search V) :
    Except EvalError (Option (Verdict V)) × Search V :=
  match search.enumeration.next? signals with
  | (none, later) => (.ok none, { search with enumeration := later })
  | (some candidate, later) =>
      ((judge search.evaluate later.problem.sample candidate).map some,
        { search with enumeration := later })

/-- A step with a verdict has handled a program of the enumeration. -/
theorem next?_of_step {signals : Signals} {search later : Search V} {verdict : Verdict V}
    (stepped : search.step signals = (.ok (some verdict), later)) :
    ∃ program, search.enumeration.next? signals = (some program, later.enumeration) := by
  unfold step at stepped
  split at stepped
  · simp at stepped
  · rename_i candidate rest shown
    simp only [Prod.mk.injEq] at stepped
    rcases stepped with ⟨-, rfl⟩
    exact ⟨candidate, shown⟩

/-- Step until a candidate is correct, an error is reported or none is left. -/
def run (signals : Signals) (search : Search V) : Except EvalError (Outcome V) :=
  match _ : search.step signals with
  | (.error error, _) => .error error
  | (.ok none, final) =>
      .ok (.exhausted final.enumeration.explored
        (final.enumeration.exhausted.getD .frontierEmpty))
  | (.ok (some (.correct program)), later) => .ok (.found program later.enumeration.explored)
  | (.ok (some (.incorrect _ _)), later) => run signals later
termination_by (search.enumeration.allowance, search.enumeration.pending)
decreasing_by
  rcases next?_of_step ‹_› with ⟨_, shown⟩
  exact Enumeration.next?_decreases shown

end Search

/-- A language whose grammar can complete programs, with a budget to search in it. -/
structure Synthesizer (V : Type u) where
  language : Language V
  budget : Budget
  valid : language.grammar.validate = .ok ()

namespace Synthesizer

/-- Check the grammar once and for all. -/
def create (language : Language V) (budget : Budget) :
    Except SynthesisError (Synthesizer V) :=
  match checked : language.grammar.validate with
  | .ok () => .ok ⟨language, budget, checked⟩
  | .error error => .error (.grammar error)

/-- The same language, searched within another budget. -/
def withBudget (synthesizer : Synthesizer V) (budget : Budget) : Synthesizer V :=
  { synthesizer with budget }

/-- The same grammar and literals under another meaning of the programs. -/
def withEvaluator (synthesizer : Synthesizer V) (evaluate : Evaluator V) : Synthesizer V where
  language := { synthesizer.language with evaluate }
  budget := synthesizer.budget
  valid := synthesizer.valid

/-- The enumeration that a sample asks for. -/
def problem (synthesizer : Synthesizer V) (sample : Sample V) : Problem V :=
  ⟨synthesizer.language.grammar, synthesizer.language.filler, sample, synthesizer.budget⟩

/-- Every candidate for a sample in search order, none of them evaluated. -/
def enumerate (synthesizer : Synthesizer V) (sample : Sample V) : Enumeration V :=
  Enumeration.start (synthesizer.problem sample)

/-- The search for a sample, candidate by candidate. -/
def search (synthesizer : Synthesizer V) (sample : Sample V) : Search V :=
  ⟨synthesizer.language.evaluate, synthesizer.enumerate sample⟩

/-- The first correct program in search order, if the budget reaches it. -/
def synthesize [DecidableEq V] (synthesizer : Synthesizer V) (signals : Signals)
    (sample : Sample V) : Except SynthesisError (Outcome V) :=
  match (synthesizer.search sample).run signals with
  | .ok outcome => .ok outcome
  | .error error => .error (.evaluation error)

/-- A language whose grammar is valid is accepted as it is. -/
theorem create_eq_ok_iff (language : Language V) (budget : Budget)
    (synthesizer : Synthesizer V) :
    create language budget = .ok synthesizer ↔
      language = synthesizer.language ∧ budget = synthesizer.budget := by
  rcases synthesizer with ⟨accepted, bound, valid⟩
  unfold create
  constructor
  · intro made
    split at made
    · cases made
      exact ⟨rfl, rfl⟩
    · cases made
  · rintro ⟨rfl, rfl⟩
    split
    · rfl
    · rename_i refused
      rw [valid] at refused
      cases refused

end Synthesizer

end ProgramSearch
