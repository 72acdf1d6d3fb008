import ProgramSearch.Search

namespace ProgramSearch

/-!
# Calls under changing signals

A run asks for one program after another, with the signals as they stand at each
call.  A search run in the same way steps instead of asking.
-/

universe u

variable {V : Type u}

namespace Enumeration

/-- The state after one call for each entry of the list. -/
def after (state : Enumeration V) (calls : List Signals) : Enumeration V :=
  calls.foldl (fun state signals => (state.next? signals).2) state

/-- What each call answers. -/
def answers (state : Enumeration V) : List Signals → List (Option (Tree V))
  | [] => []
  | signals :: calls =>
      (state.next? signals).1 :: (state.next? signals).2.answers calls

@[simp] theorem after_nil (state : Enumeration V) : state.after [] = state := rfl

@[simp] theorem after_cons (state : Enumeration V) (signals : Signals)
    (calls : List Signals) :
    state.after (signals :: calls) = (state.next? signals).2.after calls := rfl

theorem length_answers (state : Enumeration V) (calls : List Signals) :
    (state.answers calls).length = calls.length := by
  induction calls generalizing state with
  | nil => rfl
  | cons signals calls ih => simp [answers, ih]

end Enumeration

namespace Search

variable [DecidableEq V]

/-- The search after one step for each entry of the list. -/
def after (search : Search V) (calls : List Signals) : Search V :=
  calls.foldl (fun search signals => (search.step signals).2) search

/-- What each step reports. -/
def reports (search : Search V) :
    List Signals → List (Except EvalError (Option (Verdict V)))
  | [] => []
  | signals :: calls =>
      (search.step signals).1 :: (search.step signals).2.reports calls

/-- The search as a run leaves it: behind the first step that reports an error, a correct
candidate or the end. -/
def afterRun (signals : Signals) (search : Search V) : Search V :=
  match _ : search.step signals with
  | (.error _, later) => later
  | (.ok none, later) => later
  | (.ok (some (.correct _)), later) => later
  | (.ok (some (.incorrect _ _)), later) => afterRun signals later
termination_by (search.enumeration.allowance, search.enumeration.pending)
decreasing_by
  rcases next?_of_step ‹_› with ⟨_, shown⟩
  exact Enumeration.next?_decreases shown

/-- A step leaves the enumeration as a call for a program does, whatever the
candidate evaluates to. -/
theorem enumeration_step (signals : Signals) (search : Search V) :
    (search.step signals).2.enumeration = (search.enumeration.next? signals).2 := by
  unfold step
  split <;> rename_i shown <;> simp [shown]

end Search

end ProgramSearch
