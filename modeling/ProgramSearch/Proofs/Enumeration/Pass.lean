import ProgramSearch.Enumeration.Pass
import ProgramSearch.Proofs.Enumeration.Reached

namespace ProgramSearch
namespace Enumeration

/-!
# What one pass of a call does

`Passed` lists the ways a pass can go, with all that is known in each.  Every pass keeps what
is known of a state and its past, so this holds between any two passes, and not only between
calls.  A call is as many passes as it takes to give an answer, each under the same signals,
and takes one sketch in every pass but the last.
-/

universe u

variable {V : Type u}

/-- The course of one pass: its answer, if it gives one, and the state after it. -/
inductive Passed (signals : Signals) (state : Enumeration V) :
    Option (Option (Tree V)) → Enumeration V → Prop where
  | hand {program : Tree V} {rest : Filling V}
      (coming : state.toCome = program :: rest.toList) :
      Passed signals state (some (some program)) { state with filling := some rest }
  | rest (idle : state.toCome = []) (finished : state.exhausted.isSome = true) :
      Passed signals state (some none) { state with filling := none }
  | dry (idle : state.toCome = []) (running : state.exhausted = none)
      (empty : state.worklist.toList = []) :
      Passed signals state (some none) (state.stop .frontierEmpty)
  | stop {reason : StopReason} (idle : state.toCome = []) (running : state.exhausted = none)
      (waiting : state.worklist.toList ≠ [])
      (refused : state.problem.budget.stopReason signals state.explored = some reason) :
      Passed signals state (some none) (state.stop reason)
  | take {sketch : Tree V} {waiting : Queue (Tree V)} (idle : state.toCome = [])
      (running : state.exhausted = none)
      (first : state.worklist.toList = sketch :: waiting.toList)
      (allowed : state.problem.budget.stopReason signals state.explored = none) :
      Passed signals state none (state.take sketch waiting)

/-- Every pass follows its course. -/
theorem passed_pass (signals : Signals) (state : Enumeration V) :
    Passed signals state (state.pass signals).1 (state.pass signals).2 := by
  unfold pass
  split
  · rename_i program rest shown
    exact .hand (toCome_of_bind_eq_some shown)
  · rename_i ended
    have idle := toCome_of_bind_eq_none ended
    by_cases finished : state.exhausted.isSome = true
    · rw [if_pos finished]
      exact .rest idle finished
    · rw [if_neg finished]
      have running := Option.not_isSome_iff_eq_none.mp finished
      split
      · rename_i empty
        exact .dry idle running ((Queue.pop?_eq_none_iff _).mp empty)
      · rename_i sketch waiting popped
        have first := Queue.toList_of_pop? popped
        split
        · rename_i reason refused
          exact .stop idle running (by rw [first]; simp) refused
        · rename_i allowed
          exact .take idle running first allowed

theorem passed_of_eq {signals : Signals} {state later : Enumeration V}
    {answer : Option (Option (Tree V))} (result : state.pass signals = (answer, later)) :
    Passed signals state answer later := by
  have passed := passed_pass signals state
  rwa [result] at passed

/-- A pass without an answer has taken a sketch within the limit. -/
theorem room_of_pass {signals : Signals} {state later : Enumeration V}
    (further : state.pass signals = (none, later)) :
    state.explored < state.problem.budget.limit ∧ later.explored = state.explored + 1 ∧
      later.problem = state.problem := by
  cases passed_of_eq further with
  | take _ _ _ allowed =>
      exact ⟨((Budget.stopReason_eq_none_iff _ _ _).mp allowed).2, explored_take _ _ _,
        problem_take _ _ _⟩

/-! ## Passes and calls -/

/-- A call is one pass, and then whatever is left of it if that gives no answer. -/
theorem next?_eq (signals : Signals) (state : Enumeration V) :
    state.next? signals =
      match state.pass signals with
      | (some answer, later) => (answer, later)
      | (none, later) => later.next? signals := by
  cases filled : state.filling.bind Filling.next? with
  | some shown =>
      rw [state.next?_of_filled filled, pass, filled]
  | none =>
      by_cases finished : state.exhausted.isSome = true
      · rw [next?, pass, filled, if_pos finished, if_pos finished]
      · have running := Option.not_isSome_iff_eq_none.mp finished
        cases popped : state.worklist.pop? with
        | none => rw [next?, pass, filled, if_neg finished, if_neg finished, popped]
        | some next =>
            rcases next with ⟨sketch, waiting⟩
            cases reason : state.problem.budget.stopReason signals state.explored with
            | some refusal =>
                rw [state.next?_of_refused filled running popped reason, pass, filled,
                  if_neg finished, popped, reason]
            | none =>
                rw [state.next?_of_allowed filled running popped reason, pass, filled,
                  if_neg finished, popped, reason]

theorem next?_of_pass_eq_some {signals : Signals} {state later : Enumeration V}
    {answer : Option (Tree V)} (answered : state.pass signals = (some answer, later)) :
    state.next? signals = (answer, later) := by
  rw [next?_eq, answered]

theorem next?_of_pass_eq_none {signals : Signals} {state later : Enumeration V}
    (further : state.pass signals = (none, later)) :
    state.next? signals = later.next? signals := by
  rw [next?_eq, further]

theorem allowance_lt_of_pass {signals : Signals} {state later : Enumeration V}
    (further : state.pass signals = (none, later)) : later.allowance < state.allowance := by
  rcases room_of_pass further with ⟨room, counted, same⟩
  rw [allowance, allowance, Budget.remaining, Budget.remaining, same, counted]
  omega

/-- More passes than sketches may still be taken are enough for a call, whatever the signals
are in each of them. -/
theorem exists_callWithin? {schedule : List Signals} {state : Enumeration V}
    (enough : state.allowance < schedule.length) :
    ∃ answered, state.callWithin? schedule = some answered := by
  induction schedule generalizing state with
  | nil => cases enough
  | cons signals schedule ih =>
      rw [callWithin?]
      rcases result : state.pass signals with ⟨_ | answer, later⟩
      · have fewer := allowance_lt_of_pass result
        rw [List.length_cons] at enough
        exact ih (by omega)
      · exact ⟨_, rfl⟩

/-- Under unchanging signals those passes are the call. -/
theorem callWithin?_replicate (signals : Signals) {count : Nat} {state : Enumeration V}
    (enough : state.allowance < count) :
    state.callWithin? (List.replicate count signals) = some (state.next? signals) := by
  induction count generalizing state with
  | zero => cases enough
  | succ count ih =>
      rw [List.replicate_succ, callWithin?]
      rcases result : state.pass signals with ⟨_ | answer, later⟩
      · have fewer := allowance_lt_of_pass result
        rw [next?_of_pass_eq_none result]
        exact ih (by omega)
      · rw [next?_of_pass_eq_some result]

/-- A call is the passes of some schedule. -/
theorem exists_schedule_of_call (signals : Signals) (state : Enumeration V) :
    ∃ schedule, state.afterPasses schedule = (state.next? signals).2 ∧
      state.answersOfPasses schedule = [(state.next? signals).1] := by
  induction bound : state.allowance using Nat.strong_induction_on generalizing state with
  | _ allowance ih =>
      rcases result : state.pass signals with ⟨_ | answer, later⟩
      · have fewer := allowance_lt_of_pass result
        rcases ih _ (bound ▸ fewer) later rfl with ⟨schedule, reached, answered⟩
        refine ⟨signals :: schedule, ?_, ?_⟩
        · rw [afterPasses_cons, result, reached, next?_of_pass_eq_none result]
        · rw [answersOfPasses, result, answered, next?_of_pass_eq_none result]
          rfl
      · refine ⟨[signals], ?_, ?_⟩
        · rw [afterPasses_cons, result, next?_of_pass_eq_some result, afterPasses_nil]
        · rw [answersOfPasses, result, next?_of_pass_eq_some result]
          rfl

/-- So are several calls, one after another. -/
theorem exists_schedule_of_calls (state : Enumeration V) (calls : List Signals) :
    ∃ schedule, state.afterPasses schedule = state.after calls ∧
      state.answersOfPasses schedule = state.answers calls := by
  induction calls generalizing state with
  | nil => exact ⟨[], rfl, rfl⟩
  | cons signals calls ih =>
      rcases exists_schedule_of_call signals state with ⟨first, reached, answered⟩
      rcases ih (state.next? signals).2 with ⟨rest, final, others⟩
      refine ⟨first ++ rest, ?_, ?_⟩
      · rw [afterPasses_append, reached, final, after_cons]
      · rw [answersOfPasses_append, answered, reached, others, answers,
          List.singleton_append]

/-! ## What every pass keeps -/

/-- One pass adds the sketch it takes or the program it answers. -/
theorem Reached.pass {problem : Problem V} {taken shown : List (Tree V)}
    {state later : Enumeration V} {signals : Signals} {answer : Option (Option (Tree V))}
    (reached : Reached problem taken shown state)
    (passed : Passed signals state answer later) :
    ∃ more, Reached problem (taken ++ more) (shown ++ answer.toList.reduceOption) later := by
  cases passed with
  | hand coming => exact ⟨[], by simpa using reached.hand coming⟩
  | rest idle _ => exact ⟨[], by simpa using reached.rest idle⟩
  | dry idle _ empty =>
      have right : state.Justified .frontierEmpty := empty
      exact ⟨[], by simpa using reached.stop idle right⟩
  | stop idle _ waiting refused =>
      have right := reached.justified_of_stopReason waiting refused
      exact ⟨[], by simpa using reached.stop idle right⟩
  | take idle running first allowed =>
      have room := ((Budget.stopReason_eq_none_iff _ _ _).mp allowed).2
      exact ⟨[_], by simpa using reached.take idle running first room⟩

/-- Any passes from the start, under any signals, reach a state that its past explains. -/
theorem reached_passes (problem : Problem V) (schedule : List Signals) :
    ∃ taken, Reached problem taken ((start problem).answersOfPasses schedule).reduceOption
      ((start problem).afterPasses schedule) := by
  induction schedule using List.reverseRecOn with
  | nil => exact ⟨[], Reached.start problem⟩
  | append_singleton schedule signals ih =>
      rcases ih with ⟨taken, reached⟩
      rcases reached.pass (passed_pass signals _) with ⟨more, further⟩
      refine ⟨taken ++ more, ?_⟩
      rw [afterPasses_append, answersOfPasses_append, List.reduceOption_append]
      simpa [answersOfPasses] using further

end Enumeration
end ProgramSearch
