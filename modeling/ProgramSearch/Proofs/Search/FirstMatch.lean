import ProgramSearch.Proofs.Search.LockStep
import ProgramSearch.Proofs.Sketch.Program

namespace ProgramSearch

/-!
# A synthesis stops at the first decisive candidate

The candidates of a synthesis are those of its drained enumeration.  A run passes over
every candidate that decides nothing, and the first decisive one settles it: with the
program found or with the fatal error.  If there is none, the run ends as the enumeration
does.  What the other candidates evaluate to, or whether they fault, makes no difference.
-/

universe u

variable {V : Type u}

namespace Enumeration

variable {signals : Signals} {state : Enumeration V}

theorem next?_of_drain_eq_nil (nothing : (state.drain signals).1 = []) :
    state.next? signals = (none, (state.drain signals).2) := by
  rcases asked : state.next? signals with ⟨answer, later⟩
  cases answer with
  | none => rw [drain_of_next?_eq_none asked]
  | some program =>
      rw [drain_of_next?_eq_some asked] at nothing
      cases nothing

theorem next?_of_drain_eq_cons {candidate : Tree V} {others : List (Tree V)}
    (candidates : (state.drain signals).1 = candidate :: others) :
    (state.next? signals).1 = some candidate ∧
      (state.next? signals).2.drain signals = (others, (state.drain signals).2) := by
  rcases asked : state.next? signals with ⟨answer, later⟩
  cases answer with
  | none =>
      rw [drain_of_next?_eq_none asked] at candidates
      cases candidates
  | some program =>
      rw [drain_of_next?_eq_some asked] at candidates ⊢
      rcases List.cons.inj candidates with ⟨rfl, rfl⟩
      exact ⟨rfl, rfl⟩

theorem after_append (state : Enumeration V) (earlier later : List Signals) :
    state.after (earlier ++ later) = (state.after earlier).after later :=
  List.foldl_append

/-- As many calls as there are first candidates leave the other candidates to come. -/
theorem drain_after {earlier later : List (Tree V)}
    (candidates : (state.drain signals).1 = earlier ++ later) :
    (state.after (List.replicate earlier.length signals)).drain signals =
      (later, (state.drain signals).2) := by
  induction earlier generalizing state with
  | nil => exact Prod.ext candidates rfl
  | cons first earlier ih =>
      rcases next?_of_drain_eq_cons candidates with ⟨-, rest⟩
      have others : ((state.next? signals).2.drain signals).1 = earlier ++ later :=
        congrArg Prod.fst rest
      rw [List.length_cons, List.replicate_succ, after_cons, ih others, rest]

end Enumeration

variable [DecidableEq V]

namespace Search

variable {signals : Signals} (search : Search V)

/-- A run passes over the first candidates when none of them is decisive. -/
theorem run_after_of_indecisive {earlier later : List (Tree V)}
    (candidates : (search.enumeration.drain signals).1 = earlier ++ later)
    (passed : ∀ candidate ∈ earlier,
      ¬ IsDecisive search.evaluate search.enumeration.problem.sample candidate) :
    (search.after (List.replicate earlier.length signals)).run signals =
      search.run signals := by
  induction earlier generalizing search with
  | nil => rfl
  | cons first earlier ih =>
      rcases Enumeration.next?_of_drain_eq_cons candidates with ⟨shown, rest⟩
      rcases judge_eq_incorrect (passed first List.mem_cons_self) with ⟨got, judged⟩
      have rejected : (search.step signals).1 = .ok (some (.incorrect first got)) := by
        rw [step_of_next?_eq_some (Prod.ext shown rfl), judged]
        rfl
      have kept := (Enumeration.call_next? signals search.enumeration).problem_eq
      rw [run_of_step_eq_incorrect rejected]
      apply ih (search.step signals).2
      · rw [enumeration_step]
        exact congrArg Prod.fst rest
      · intro candidate member
        rw [evaluate_step, enumeration_step, kept]
        exact passed candidate (List.mem_cons_of_mem _ member)

section Split

variable {earlier later : List (Tree V)} {candidate : Tree V}
  (candidates : (search.enumeration.drain signals).1 = earlier ++ candidate :: later)

include candidates

/-- The step behind the first candidates judges the next one. -/
theorem step_after_of_split :
    ((search.after (List.replicate earlier.length signals)).step signals).1 =
      (judge search.evaluate search.enumeration.problem.sample candidate).map some := by
  have rest := Enumeration.drain_after candidates
  rcases Enumeration.next?_of_drain_eq_cons (congrArg Prod.fst rest) with ⟨shown, -⟩
  rw [← enumeration_after] at shown
  rw [step_of_next?_eq_some (Prod.ext shown rfl), evaluate_after, enumeration_after,
    Enumeration.problem_after]

variable (passed : ∀ other ∈ earlier,
  ¬ IsDecisive search.evaluate search.enumeration.problem.sample other)

include passed

theorem run_eq_found
    (value : search.evaluate candidate ⟨search.enumeration.problem.sample.inputs⟩ =
      .ok (some search.enumeration.problem.sample.output)) :
    search.run signals = .ok (.found candidate
      (search.enumeration.after (List.replicate (earlier.length + 1) signals)).explored) := by
  have accepted := search.step_after_of_split candidates
  rw [judge_eq_correct value] at accepted
  rw [← search.run_after_of_indecisive candidates passed, run_of_step_eq_correct accepted,
    enumeration_step, enumeration_after, List.replicate_succ', Enumeration.after_append]
  rfl

theorem run_eq_error {failure : EvalError}
    (failed : search.evaluate candidate ⟨search.enumeration.problem.sample.inputs⟩ =
      .error failure)
    (fatal : failure.isFatal = true) : search.run signals = .error failure := by
  have aborted := search.step_after_of_split candidates
  rw [judge_eq_error failed fatal] at aborted
  rw [← search.run_after_of_indecisive candidates passed, run_of_step_eq_error aborted]

end Split

/-- Without a decisive candidate a run ends as its enumeration does. -/
theorem run_eq_exhausted
    (passed : ∀ candidate ∈ (search.enumeration.drain signals).1,
      ¬ IsDecisive search.evaluate search.enumeration.problem.sample candidate) :
    search.run signals = .ok (.exhausted (search.enumeration.drain signals).2.explored
      ((search.enumeration.drain signals).2.exhausted.getD .frontierEmpty)) := by
  have all := (List.append_nil (search.enumeration.drain signals).1).symm
  have rest := Enumeration.drain_after all
  have dry := Enumeration.next?_of_drain_eq_nil (congrArg Prod.fst rest)
  rw [rest, ← enumeration_after] at dry
  have stepped := step_of_next?_eq_none dry
  rw [← search.run_after_of_indecisive all passed,
    run_of_step_eq_none (congrArg Prod.fst stepped), stepped]

end Search

namespace Synthesizer

section Evaluators

variable {synthesizer : Synthesizer V} {signals : Signals} {sample : Sample V}

end Evaluators

end Synthesizer

end ProgramSearch
