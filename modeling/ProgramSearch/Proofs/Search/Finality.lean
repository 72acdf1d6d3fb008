import ProgramSearch.Proofs.Enumeration.Pass
import ProgramSearch.Proofs.Search.Absence

namespace ProgramSearch
namespace Enumeration

/-!
# The end of an enumeration is final, and its reason is true

An enumeration that has answered nothing once has ended: no filling is under way, the reason
is given, and from then on a pass finds both and leaves everything as it is, whatever the
signals are.  Before that no reason is given.  So the reason for the end and the answers given
tell the same, and a search that reports the end always has a reason to report.
-/

universe u

variable {V : Type u}

/-- The end has come, and no filling is under way any more. -/
structure Ended (state : Enumeration V) : Prop where
  idle : state.filling = none
  finished : state.exhausted.isSome = true

namespace Ended

variable {state : Enumeration V}

/-- The signals are not even looked at. -/
theorem pass_eq (ended : Ended state) (signals : Signals) :
    state.pass signals = (some none, state) := by
  rcases state with ⟨problem, worklist, filling, explored, exhausted⟩
  rcases ended with ⟨rfl, finished⟩
  rw [pass, if_pos finished]
  rfl

theorem next?_eq (ended : Ended state) (signals : Signals) :
    state.next? signals = (none, state) :=
  next?_of_pass_eq_some (ended.pass_eq signals)

theorem after_eq (ended : Ended state) (calls : List Signals) : state.after calls = state := by
  induction calls with
  | nil => rfl
  | cons signals calls ih => rw [after_cons, ended.next?_eq, ih]

theorem answers_eq (ended : Ended state) (calls : List Signals) :
    state.answers calls = List.replicate calls.length none := by
  induction calls with
  | nil => rfl
  | cons signals calls ih =>
      rw [answers, ended.next?_eq, ih, List.length_cons, List.replicate_succ]

end Ended

namespace Passed

variable {signals : Signals} {state later : Enumeration V}

theorem ended (passed : Passed signals state (some none) later) : Ended later := by
  cases passed with
  | rest _ finished => exact ⟨rfl, finished⟩
  | dry => exact ⟨rfl, rfl⟩
  | stop => exact ⟨rfl, rfl⟩

theorem running {answer : Option (Option (Tree V))} (passed : Passed signals state answer later)
    (going : answer ≠ some none) (before : state.exhausted = none) :
    later.exhausted = none := by
  cases passed with
  | hand => exact before
  | rest | dry | stop => exact absurd rfl going
  | take => rw [exhausted_take, before]

end Passed

/-- Passes of an enumeration that has not ended either end it, answering nothing, or answer
programs only and give no reason for an end. -/
theorem ended_or_running {state : Enumeration V} (before : state.exhausted = none)
    (schedule : List Signals) :
    none ∈ state.answersOfPasses schedule ∧ Ended (state.afterPasses schedule) ∨
      none ∉ state.answersOfPasses schedule ∧ (state.afterPasses schedule).exhausted = none := by
  induction schedule using List.reverseRecOn with
  | nil => exact Or.inr ⟨List.not_mem_nil, before⟩
  | append_singleton schedule signals ih =>
      have last : state.answersOfPasses (schedule ++ [signals]) =
          state.answersOfPasses schedule ++
            ((state.afterPasses schedule).pass signals).1.toList := by
        rw [answersOfPasses_append, answersOfPasses, answersOfPasses, List.append_nil]
      rw [last, afterPasses_append, afterPasses_cons, afterPasses_nil]
      rcases ih with ⟨nothing, ended⟩ | ⟨programs, running⟩
      · rw [ended.pass_eq]
        exact Or.inl ⟨List.mem_append_left _ nothing, ended⟩
      · have passed := passed_pass signals (state.afterPasses schedule)
        generalize (state.afterPasses schedule).pass signals = result at passed ⊢
        rcases result with ⟨answer, later⟩
        by_cases closing : answer = some none
        · subst closing
          exact Or.inl ⟨List.mem_append_right _ (List.mem_singleton.mpr rfl), passed.ended⟩
        · refine Or.inr ⟨?_, passed.running closing running⟩
          intro nothing
          rcases List.mem_append.mp nothing with earlier | now
          · exact programs earlier
          · exact closing (Option.mem_toList.mp now)

theorem frontier_eq_zero_iff (state : Enumeration V) :
    state.frontier = 0 ↔ state.worklist.toList = [] := by
  rw [frontier, ← Queue.length_toList, List.length_eq_zero_iff]

/-- What the reason for the end tells about the answers given so far, about all later ones, and
about the state. -/
structure TellsEnd (problem : Problem V) (answers : List (Option (Tree V)))
    (state : Enumeration V) : Prop where
  told : state.exhausted.isSome = true ↔ none ∈ answers
  lasting : none ∈ answers → ∀ calls, state.after calls = state ∧
    state.answers calls = List.replicate calls.length none
  dry : state.exhausted = some .frontierEmpty → state.frontier = 0
  spent : state.exhausted = some .budgetSpent →
    state.explored = problem.budget.limit ∧ 0 < state.frontier
  cancelled : state.exhausted = some .cancelled → 0 < state.frontier

/-- The reason is true between any two passes. -/
theorem tellsEnd_passes (problem : Problem V) (schedule : List Signals) :
    TellsEnd problem ((start problem).answersOfPasses schedule)
      ((start problem).afterPasses schedule) := by
  rcases reached_passes problem schedule with ⟨taken, reached⟩
  have waiting : ((start problem).afterPasses schedule).worklist.toList ≠ [] →
      0 < ((start problem).afterPasses schedule).frontier := by
    intro some
    exact Nat.pos_of_ne_zero fun none => some ((frontier_eq_zero_iff _).mp none)
  have before : (start problem).exhausted = none := rfl
  constructor
  case told =>
    rcases ended_or_running before schedule with ⟨nothing, ended⟩ | ⟨programs, running⟩
    · exact iff_of_true ended.finished nothing
    · rw [running]
      exact iff_of_false Bool.false_ne_true programs
  case lasting =>
    intro nothing calls
    rcases ended_or_running before schedule with ⟨_, ended⟩ | ⟨programs, _⟩
    · exact ⟨ended.after_eq calls, ended.answers_eq calls⟩
    · exact absurd nothing programs
  case dry =>
    intro given
    exact (frontier_eq_zero_iff _).mpr (reached.justified _ given)
  case spent =>
    intro given
    rcases reached.justified _ given with ⟨spent, some⟩
    rw [reached.same] at spent
    exact ⟨spent, waiting some⟩
  case cancelled =>
    intro given
    exact waiting (reached.justified _ given)

/-- Exhaustion is final and truthful.  At any point of a run, between two calls or within one
and whatever the signals have been, a reason for the end is given exactly if some call has
answered nothing.  Then all later calls answer nothing and change nothing, and the reason is
true of the state.  A search meets the end of its enumeration only with a reason at hand, and
so the reason in the outcome of a synthesis is always that of the enumeration. -/
theorem exhaustion_final [DecidableEq V] :
    (∀ (problem : Problem V) (calls : List Signals),
      TellsEnd problem ((start problem).answers calls) ((start problem).after calls)) ∧
    (∀ (problem : Problem V) (schedule : List Signals),
      TellsEnd problem ((start problem).answersOfPasses schedule)
        ((start problem).afterPasses schedule)) ∧
    (∀ (synthesizer : Synthesizer V) (sample : Sample V) (calls : List Signals)
        (signals : Signals) (final : Search V),
      ((synthesizer.search sample).after calls).step signals = (.ok none, final) →
        ∃ reason, final.enumeration.exhausted = some reason) ∧
    ∀ (synthesizer : Synthesizer V) (signals : Signals) (sample : Sample V) (explored : Nat)
        (reason : StopReason),
      synthesizer.synthesize signals sample = .ok (.exhausted explored reason) →
        ((synthesizer.enumerate sample).drain signals).2.exhausted = some reason := by
  refine ⟨?_, tellsEnd_passes, ?_, ?_⟩
  · intro problem calls
    rcases exists_schedule_of_calls (start problem) calls with ⟨schedule, state, answers⟩
    rw [← state, ← answers]
    exact tellsEnd_passes problem schedule
  · intro synthesizer sample calls signals final stepped
    have asked := Search.next?_of_step_eq_none stepped
    have call := call_next? signals ((synthesizer.search sample).after calls).enumeration
    rw [asked] at call
    exact Option.isSome_iff_exists.mp (call.isSome_exhausted_of_none rfl)
  · intro synthesizer signals sample explored reason ended
    rcases reached_drain signals (synthesizer.problem sample) with ⟨_, _, finished⟩
    rcases Option.isSome_iff_exists.mp finished with ⟨own, given⟩
    have reported : reason =
        ((start (synthesizer.problem sample)).drain signals).2.exhausted.getD .frontierEmpty :=
      (Search.drain_of_run_eq_exhausted (Synthesizer.run_of_synthesize ended)).1
    rw [given, Option.getD_some] at reported
    rw [reported]
    exact given

end Enumeration
end ProgramSearch
