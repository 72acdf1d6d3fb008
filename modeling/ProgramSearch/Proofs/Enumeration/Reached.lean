import Mathlib.Data.List.ReduceOption
import ProgramSearch.Enumeration.Run
import ProgramSearch.Proofs.Enumeration.Call
import ProgramSearch.Proofs.Enumeration.Levels
import ProgramSearch.Proofs.Sketch.Expansion
import ProgramSearch.Proofs.Sketch.Filling

namespace ProgramSearch
namespace Enumeration

/-!
# The state of an enumeration and its past

A state is understood together with the sketches taken and the programs handed out on
the way to it.  Sketches taken and sketches waiting follow the levels, every sketch
taken is counted, and the programs handed out together with those still to come are the
completions of the sketches taken, in order.  `Reached` collects these facts.  It holds
at the start, every call keeps it whatever the signals are, and therefore it holds after
any run.
-/

universe u

variable {V : Type u}

/-- What a reason for the end says about the state in which it was given. -/
def Justified (state : Enumeration V) : StopReason → Prop
  | .frontierEmpty => state.worklist.toList = []
  | .budgetSpent =>
      state.explored = state.problem.budget.limit ∧ state.worklist.toList ≠ []
  | .cancelled => state.worklist.toList ≠ []

/-- A state of the enumeration of a problem after the given sketches have been taken and
the given programs handed out. -/
structure Reached (problem : Problem V) (taken shown : List (Tree V))
    (state : Enumeration V) : Prop where
  same : state.problem = problem
  follows : problem.grammar.Follows taken state.worklist.toList
  counted : state.explored = taken.length
  within : state.explored ≤ problem.budget.limit
  handed : shown ++ state.toCome = taken.flatMap problem.completions
  justified : ∀ reason, state.exhausted = some reason → state.Justified reason
  silent : state.exhausted.isSome = true → state.toCome = []

/-- What comes after a sketch has been taken: its rewritings wait behind the others. -/
theorem toList_worklist_take (state : Enumeration V) (sketch : Tree V)
    (waiting : Queue (Tree V)) :
    (state.take sketch waiting).worklist.toList =
      waiting.toList ++ sketch.rewrites state.problem.grammar := by
  unfold take
  split
  · rename_i complete
    rw [Grammar.rewrites_eq_nil_of_isComplete complete, List.append_nil]
  · rw [Queue.toList_append, Grammar.expansions_eq_rewrites]

theorem toCome_take (state : Enumeration V) (sketch : Tree V) (waiting : Queue (Tree V)) :
    (state.take sketch waiting).toCome = state.problem.completions sketch := by
  unfold take
  rw [Problem.completions, ← Grammar.isComplete_eq_isEmpty]
  split
  · exact Filling.toList_ofSketch_eq_completions _ _ _
  · rfl

theorem exhausted_take (state : Enumeration V) (sketch : Tree V)
    (waiting : Queue (Tree V)) : (state.take sketch waiting).exhausted = state.exhausted := by
  unfold take
  split <;> rfl

namespace Reached

variable {problem : Problem V} {taken shown : List (Tree V)} {state : Enumeration V}

theorem start (problem : Problem V) : Reached problem [] [] (Enumeration.start problem) where
  same := rfl
  follows := Grammar.Follows.start problem.grammar
  counted := rfl
  within := Nat.zero_le _
  handed := rfl
  justified := by
    intro reason impossible
    cases impossible
  silent := by
    intro impossible
    cases impossible

/-- Handing out a program moves it from those to come to those handed out. -/
theorem hand {program : Tree V} {rest : Filling V} (reached : Reached problem taken shown state)
    (coming : state.toCome = program :: rest.toList) :
    Reached problem taken (shown ++ [program]) { state with filling := some rest } where
  same := reached.same
  follows := reached.follows
  counted := reached.counted
  within := reached.within
  handed := by
    have handed := reached.handed
    rw [coming] at handed
    rw [← handed, List.append_assoc]
    rfl
  justified := reached.justified
  silent := by
    intro ended
    rw [reached.silent ended] at coming
    cases coming

theorem rest (reached : Reached problem taken shown state) (idle : state.toCome = []) :
    Reached problem taken shown { state with filling := none } where
  same := reached.same
  follows := reached.follows
  counted := reached.counted
  within := reached.within
  handed := by
    rw [← reached.handed, idle]
    rfl
  justified := reached.justified
  silent := fun _ => rfl

/-- The end comes for a reason that the state justifies. -/
theorem stop {reason : StopReason} (reached : Reached problem taken shown state)
    (idle : state.toCome = []) (right : state.Justified reason) :
    Reached problem taken shown (state.stop reason) where
  same := reached.same
  follows := reached.follows
  counted := reached.counted
  within := reached.within
  handed := by
    rw [← reached.handed, idle]
    rfl
  justified := by
    intro given stopped
    cases stopped
    cases reason <;> exact right
  silent := fun _ => rfl

/-- Taking a sketch that the budget allows. -/
theorem take {sketch : Tree V} {waiting : Queue (Tree V)}
    (reached : Reached problem taken shown state) (idle : state.toCome = [])
    (running : state.exhausted = none)
    (first : state.worklist.toList = sketch :: waiting.toList)
    (room : state.explored < state.problem.budget.limit) :
    Reached problem (taken ++ [sketch]) shown (state.take sketch waiting) where
  same := by rw [problem_take, reached.same]
  follows := by
    have follows := reached.follows
    rw [first] at follows
    rw [toList_worklist_take, reached.same]
    exact follows.take
  counted := by
    rw [explored_take, reached.counted, List.length_append, List.length_singleton]
  within := by
    rw [reached.same] at room
    rw [explored_take]
    exact room
  handed := by
    have handed := reached.handed
    rw [idle, List.append_nil] at handed
    rw [toCome_take, reached.same, handed, List.flatMap_append, List.flatMap_singleton]
  justified := by
    intro reason ended
    rw [exhausted_take, running] at ended
    cases ended
  silent := by
    intro ended
    rw [exhausted_take, running] at ended
    cases ended

/-- A reason that the budget gives is justified while sketches wait. -/
theorem justified_of_stopReason {signals : Signals} {reason : StopReason}
    (reached : Reached problem taken shown state)
    (waiting : state.worklist.toList ≠ [])
    (refused : state.problem.budget.stopReason signals state.explored = some reason) :
    state.Justified reason := by
  unfold Budget.stopReason at refused
  split at refused
  · cases refused
    exact waiting
  · split at refused
    · rename_i spent
      cases refused
      have within := reached.within
      rw [← reached.same] at within
      exact ⟨Nat.le_antisymm within spent, waiting⟩
    · cases refused

/-- One call adds the sketches it takes and the program it answers. -/
theorem call {signals : Signals} {more : List (Tree V)} {answer : Option (Tree V)}
    {later : Enumeration V} (reached : Reached problem taken shown state)
    (call : Call signals state more answer later) :
    Reached problem (taken ++ more) (shown ++ answer.toList) later := by
  induction call generalizing taken with
  | hand coming =>
      rw [List.append_nil]
      exact reached.hand coming
  | rest idle _ =>
      rw [List.append_nil, Option.toList_none, List.append_nil]
      exact reached.rest idle
  | dry idle _ empty =>
      rw [List.append_nil, Option.toList_none, List.append_nil]
      exact reached.stop idle empty
  | stop idle _ waiting refused =>
      rw [List.append_nil, Option.toList_none, List.append_nil]
      exact reached.stop idle (reached.justified_of_stopReason waiting refused)
  | take idle running first allowed _ ih =>
      have room := ((Budget.stopReason_eq_none_iff _ _ _).mp allowed).2
      have further := ih (reached.take idle running first room)
      rwa [List.append_assoc, List.singleton_append] at further

end Reached

/-- The sketches taken during a run. -/
def takenDuring (state : Enumeration V) : List Signals → List (Tree V)
  | [] => []
  | signals :: calls =>
      state.takenBy signals ++ (state.next? signals).2.takenDuring calls

/-- The programs handed out during a run. -/
def shownDuring (state : Enumeration V) (calls : List Signals) : List (Tree V) :=
  (state.answers calls).reduceOption

@[simp] theorem takenDuring_nil (state : Enumeration V) : state.takenDuring [] = [] := rfl

@[simp] theorem shownDuring_nil (state : Enumeration V) : state.shownDuring [] = [] := rfl

theorem shownDuring_cons (state : Enumeration V) (signals : Signals) (calls : List Signals) :
    state.shownDuring (signals :: calls) =
      (state.next? signals).1.toList ++ (state.next? signals).2.shownDuring calls := by
  rw [shownDuring, shownDuring, answers]
  cases (state.next? signals).1 <;> rfl

theorem Reached.run {problem : Problem V} {taken shown : List (Tree V)}
    {state : Enumeration V} (reached : Reached problem taken shown state)
    (calls : List Signals) :
    Reached problem (taken ++ state.takenDuring calls) (shown ++ state.shownDuring calls)
      (state.after calls) := by
  induction calls generalizing taken shown state with
  | nil =>
      rw [takenDuring_nil, shownDuring_nil, List.append_nil, List.append_nil]
      exact reached
  | cons signals calls ih =>
      rw [takenDuring, shownDuring_cons, ← List.append_assoc, ← List.append_assoc]
      exact ih (reached.call (call_next? signals state))

/-- Every run from the start, under any signals, reaches a state that its past explains. -/
theorem reached_run (problem : Problem V) (calls : List Signals) :
    Reached problem ((start problem).takenDuring calls) ((start problem).shownDuring calls)
      ((start problem).after calls) := by
  have reached := (Reached.start problem).run calls
  rwa [List.nil_append, List.nil_append] at reached

end Enumeration
end ProgramSearch
