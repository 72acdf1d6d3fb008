import ProgramSearch.Enumeration.Run

namespace ProgramSearch

/-!
# A call pass by pass

A call is a loop.  Each pass of it looks at the filling under way, at the end if it has
come, at the worklist and at the signals, in this order, and either answers or takes one
sketch.  The signals are those of the moment: a token may be raised in the middle of a call,
and the next pass of the same call sees it.  A schedule lists the signals pass by pass.
-/

universe u

variable {V : Type u}

namespace Enumeration

/-- One pass: its answer, if it gives one, and the state after it. -/
def pass (signals : Signals) (state : Enumeration V) :
    Option (Option (Tree V)) × Enumeration V :=
  match state.filling.bind Filling.next? with
  | some (program, rest) => (some (some program), { state with filling := some rest })
  | none =>
      if state.exhausted.isSome then (some none, { state with filling := none })
      else
        match state.worklist.pop? with
        | none => (some none, state.stop .frontierEmpty)
        | some (sketch, waiting) =>
            match state.problem.budget.stopReason signals state.explored with
            | some reason => (some none, state.stop reason)
            | none => (none, state.take sketch waiting)

/-- A call that may make one pass for each entry of the schedule.  There is no result if the
last of them gives no answer either. -/
def callWithin? : List Signals → Enumeration V → Option (Option (Tree V) × Enumeration V)
  | [], _ => none
  | signals :: schedule, state =>
      match state.pass signals with
      | (some answer, later) => some (answer, later)
      | (none, later) => later.callWithin? schedule

/-- The state after one pass for each entry of the schedule, in one call or in several. -/
def afterPasses (state : Enumeration V) (schedule : List Signals) : Enumeration V :=
  schedule.foldl (fun state signals => (state.pass signals).2) state

/-- The answers that the passes of a schedule give, one for each call that they finish. -/
def answersOfPasses (state : Enumeration V) : List Signals → List (Option (Tree V))
  | [] => []
  | signals :: schedule =>
      (state.pass signals).1.toList ++ (state.pass signals).2.answersOfPasses schedule

@[simp] theorem afterPasses_nil (state : Enumeration V) : state.afterPasses [] = state := rfl

@[simp] theorem afterPasses_cons (state : Enumeration V) (signals : Signals)
    (schedule : List Signals) :
    state.afterPasses (signals :: schedule) = (state.pass signals).2.afterPasses schedule := rfl

theorem afterPasses_append (state : Enumeration V) (first second : List Signals) :
    state.afterPasses (first ++ second) = (state.afterPasses first).afterPasses second :=
  List.foldl_append

theorem answersOfPasses_append (state : Enumeration V) (first second : List Signals) :
    state.answersOfPasses (first ++ second) =
      state.answersOfPasses first ++ (state.afterPasses first).answersOfPasses second := by
  induction first generalizing state with
  | nil => rfl
  | cons signals first ih =>
      rw [List.cons_append, answersOfPasses, ih, answersOfPasses, afterPasses_cons,
        List.append_assoc]

end Enumeration

namespace Search

variable [DecidableEq V]

/-- A run that may make one step for each entry of the list, each under its own signals.
There is no result if the last of them does not settle the run either. -/
def runWithin? : List Signals → Search V → Option (Except EvalError (Outcome V))
  | [], _ => none
  | signals :: calls, search =>
      match search.step signals with
      | (.error error, _) => some (.error error)
      | (.ok none, final) =>
          some (.ok (.exhausted final.enumeration.explored
            (final.enumeration.exhausted.getD .frontierEmpty)))
      | (.ok (some (.correct program)), later) =>
          some (.ok (.found program later.enumeration.explored))
      | (.ok (some (.incorrect _ _)), later) => later.runWithin? calls

end Search

/-- The number of sketches taken by the time a synthesis ended. -/
def Outcome.explored : Outcome V → Nat
  | .found _ explored => explored
  | .exhausted explored _ => explored

end ProgramSearch
