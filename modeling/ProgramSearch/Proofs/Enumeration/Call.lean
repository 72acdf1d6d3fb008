import ProgramSearch.Enumeration
import ProgramSearch.Proofs.Odometer.Order

namespace ProgramSearch

/-!
# What one call of an enumeration does

A call hands out a program of the filling under way if there is one.  Otherwise it
takes sketches, one after another, until a complete one begins a new filling or the end
has come.  `Call` lists these cases with all that is known in each, together with the
sketches that the call has taken; every law about calls is an induction on it.
-/

universe u

variable {V : Type u}

namespace Filling

theorem toList_of_next?_eq_none {filling : Filling V} (ended : filling.next? = none) :
    filling.toList = [] := by
  rcases filling with ⟨sketch, holes, radices, current⟩
  cases current with
  | none => rw [toList, Odometer.toList_none, List.map_nil]
  | some digits => cases ended

theorem toList_of_next?_eq_some {filling rest : Filling V} {program : Tree V}
    (shown : filling.next? = some (program, rest)) :
    filling.toList = program :: rest.toList := by
  rcases filling with ⟨sketch, holes, radices, current⟩
  cases current with
  | none => cases shown
  | some digits =>
      cases shown
      rw [toList, Odometer.toList_some, List.map_cons]
      rfl

end Filling

namespace Enumeration

/-- The programs still to come from the filling under way. -/
def toCome (state : Enumeration V) : List (Tree V) :=
  match state.filling with
  | none => []
  | some filling => filling.toList

/-- The sketches that a call takes from the worklist, in order. -/
def takenBy (signals : Signals) (state : Enumeration V) : List (Tree V) :=
  if (state.filling.bind Filling.next?).isSome || state.exhausted.isSome then []
  else
    match state.worklist.pop? with
    | none => []
    | some (sketch, waiting) =>
        match _ : state.problem.budget.stopReason signals state.explored with
        | some _ => []
        | none => sketch :: takenBy signals (state.take sketch waiting)
termination_by state.allowance
decreasing_by
  exact allowance_take_lt state sketch waiting
    ((Budget.stopReason_eq_none_iff _ _ _).mp ‹_›).2

/-- The course of one call: the state before it, the sketches it takes, its answer and
the state after it. -/
inductive Call (signals : Signals) :
    Enumeration V → List (Tree V) → Option (Tree V) → Enumeration V → Prop where
  | hand {state : Enumeration V} {program : Tree V} {rest : Filling V}
      (coming : state.toCome = program :: rest.toList) :
      Call signals state [] (some program) { state with filling := some rest }
  | rest {state : Enumeration V}
      (idle : state.toCome = [])
      (finished : state.exhausted.isSome = true) :
      Call signals state [] none { state with filling := none }
  | dry {state : Enumeration V}
      (idle : state.toCome = [])
      (running : state.exhausted = none)
      (empty : state.worklist.toList = []) :
      Call signals state [] none (state.stop .frontierEmpty)
  | stop {state : Enumeration V} {reason : StopReason}
      (idle : state.toCome = [])
      (running : state.exhausted = none)
      (waiting : state.worklist.toList ≠ [])
      (refused : state.problem.budget.stopReason signals state.explored = some reason) :
      Call signals state [] none (state.stop reason)
  | take {state later : Enumeration V} {sketch : Tree V} {waiting : Queue (Tree V)}
      {taken : List (Tree V)} {answer : Option (Tree V)}
      (idle : state.toCome = [])
      (running : state.exhausted = none)
      (first : state.worklist.toList = sketch :: waiting.toList)
      (allowed : state.problem.budget.stopReason signals state.explored = none)
      (further : Call signals (state.take sketch waiting) taken answer later) :
      Call signals state (sketch :: taken) answer later

theorem toCome_of_bind_eq_none {state : Enumeration V}
    (ended : state.filling.bind Filling.next? = none) : state.toCome = [] := by
  unfold toCome
  cases present : state.filling with
  | none => rfl
  | some filling =>
      rw [present, Option.bind_some] at ended
      exact Filling.toList_of_next?_eq_none ended

theorem toCome_of_bind_eq_some {state : Enumeration V} {program : Tree V}
    {rest : Filling V} (shown : state.filling.bind Filling.next? = some (program, rest)) :
    state.toCome = program :: rest.toList := by
  rcases Option.bind_eq_some_iff.mp shown with ⟨filling, present, turned⟩
  rw [toCome, present]
  exact Filling.toList_of_next?_eq_some turned

section Unfolding

variable {signals : Signals} (state : Enumeration V)

theorem next?_of_filled {program : Tree V} {rest : Filling V}
    (filled : state.filling.bind Filling.next? = some (program, rest)) :
    state.next? signals = (some program, { state with filling := some rest }) := by
  rw [next?, filled]

theorem takenBy_of_filled {shown : Tree V × Filling V}
    (filled : state.filling.bind Filling.next? = some shown) : state.takenBy signals = [] := by
  rw [takenBy, filled]
  rfl

variable {sketch : Tree V} {waiting : Queue (Tree V)}
  (idle : state.filling.bind Filling.next? = none) (running : state.exhausted = none)
  (popped : state.worklist.pop? = some (sketch, waiting))

include idle running popped

theorem next?_of_allowed
    (allowed : state.problem.budget.stopReason signals state.explored = none) :
    state.next? signals = (state.take sketch waiting).next? signals := by
  rw [next?, idle, running, popped]
  simp only [Option.isSome_none, Bool.false_eq_true, if_false]
  split
  · rename_i refused
    rw [allowed] at refused
    cases refused
  · rfl

theorem takenBy_of_allowed
    (allowed : state.problem.budget.stopReason signals state.explored = none) :
    state.takenBy signals = sketch :: (state.take sketch waiting).takenBy signals := by
  rw [takenBy, idle, running, popped]
  simp only [Option.isSome_none, Bool.or_self, Bool.false_eq_true, if_false]
  split
  · rename_i refused
    rw [allowed] at refused
    cases refused
  · rfl

variable {reason : StopReason}

theorem next?_of_refused
    (refused : state.problem.budget.stopReason signals state.explored = some reason) :
    state.next? signals = (none, state.stop reason) := by
  rw [next?, idle, running, popped]
  simp only [Option.isSome_none, Bool.false_eq_true, if_false]
  split
  · rename_i same
    rw [refused] at same
    cases same
    rfl
  · rename_i allowed
    rw [allowed] at refused
    cases refused

theorem takenBy_of_refused
    (refused : state.problem.budget.stopReason signals state.explored = some reason) :
    state.takenBy signals = [] := by
  rw [takenBy, idle, running, popped]
  simp only [Option.isSome_none, Bool.or_self, Bool.false_eq_true, if_false]
  split
  · rfl
  · rename_i allowed
    rw [allowed] at refused
    cases refused

end Unfolding

/-- Every call follows its course. -/
theorem call_next? (signals : Signals) (state : Enumeration V) :
    Call signals state (state.takenBy signals) (state.next? signals).1
      (state.next? signals).2 := by
  fun_induction next? signals state with
  | case1 state program rest shown =>
      rw [state.takenBy_of_filled shown]
      exact .hand (toCome_of_bind_eq_some shown)
  | case2 state ended finished =>
      rw [takenBy, ended, finished]
      exact .rest (toCome_of_bind_eq_none ended) finished
  | case3 state ended running empty =>
      have unended := Option.not_isSome_iff_eq_none.mp running
      rw [takenBy, ended, unended, empty]
      exact .dry (toCome_of_bind_eq_none ended) unended
        ((Queue.pop?_eq_none_iff _).mp empty)
  | case4 state ended running sketch waiting popped reason refused =>
      have unended := Option.not_isSome_iff_eq_none.mp running
      have first := Queue.toList_of_pop? popped
      rw [state.takenBy_of_refused ended unended popped refused]
      exact .stop (toCome_of_bind_eq_none ended) unended (by rw [first]; simp) refused
  | case5 state ended running sketch waiting popped allowed ih =>
      have unended := Option.not_isSome_iff_eq_none.mp running
      have first := Queue.toList_of_pop? popped
      rw [state.takenBy_of_allowed ended unended popped allowed]
      exact .take (toCome_of_bind_eq_none ended) unended first allowed ih

end Enumeration

end ProgramSearch
