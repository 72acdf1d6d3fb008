import ProgramSearch.Proofs.Enumeration.Ending
import ProgramSearch.Proofs.Sketch.Program

namespace ProgramSearch
namespace Enumeration

/-!
# Every program is handed out

The skeleton of a program stands in the level of its number of inner nodes, so a limit
that covers the levels up to this one makes an enumeration take it.  The program is then
handed out as one of its completions.
-/

universe u

variable {V : Type u}

/-- The skeleton of a program stands among the levels up to its own. -/
theorem skeleton_mem_levelsBelow {grammar : Grammar} {filler : Filler V}
    {sample : Sample V} {program : Tree V}
    (isProgram : grammar.IsProgram filler sample program) :
    program.skeleton ∈ grammar.levelsBelow (program.innerCount + 1) := by
  rw [Grammar.levelsBelow_succ]
  apply List.mem_append_right
  exact Grammar.skeleton_mem_level isProgram.root isProgram.derived

/-- A program belongs to the completions of its skeleton that a problem allows. -/
theorem mem_completions_skeleton {problem : Problem V} {program : Tree V}
    (isProgram : problem.grammar.IsProgram problem.filler problem.sample program) :
    program ∈ problem.completions program.skeleton := by
  have completed := isProgram.mem_completions_skeleton
  rw [Problem.completions, if_pos]
  · exact completed.2
  · rw [List.isEmpty_iff, Grammar.nonterminalLeaves_eq_nil_iff]
    exact completed.1

/-- When nothing waits any more and the end has come, no program is missing. -/
theorem Reached.mem_shown_of_dry {problem : Problem V} {taken shown : List (Tree V)}
    {state : Enumeration V} (reached : Reached problem taken shown state)
    (ended : state.exhausted.isSome = true) (dry : state.worklist.toList = [])
    {program : Tree V}
    (isProgram : problem.grammar.IsProgram problem.filler problem.sample program) :
    program ∈ shown := by
  have follows := reached.follows
  rw [dry] at follows
  have reachedLevel : program.skeleton ∈ taken := by
    apply (follows.levelsBelow_prefix_taken (program.innerCount + 1)).subset
    exact skeleton_mem_levelsBelow isProgram
  rw [reached.shown_eq_of_ended ended]
  exact List.mem_flatMap.mpr
    ⟨program.skeleton, reachedLevel, mem_completions_skeleton isProgram⟩

/-- Completeness of an enumeration: some limit is enough for a program to be handed out
after a number of calls, as long as the enumeration is not cancelled. -/
theorem every_program_answered (grammar : Grammar) (filler : Filler V) (sample : Sample V)
    (program : Tree V) (isProgram : grammar.IsProgram filler sample program) :
    ∃ enough, ∀ budget : Budget, enough ≤ budget.limit →
      ∃ count, ∀ calls : List Signals, count ≤ calls.length →
        (∀ signals ∈ calls, budget.isCancelled signals = false) →
          some program ∈ (start (Problem.mk grammar filler sample budget)).answers calls := by
  refine ⟨(grammar.levelsBelow (program.innerCount + 1) : List (Tree V)).length, ?_⟩
  intro budget enough
  let problem := Problem.mk grammar filler sample budget
  refine ⟨((grammar.firstSketches budget.limit).flatMap problem.completions).length + 1, ?_⟩
  intro calls many quiet
  have reached := reached_run problem calls
  have ended := isSome_exhausted_after _ _ (none_mem_answers problem calls many)
  have uncancelled := exhausted_after_ne_cancelled (start problem) calls quiet
    (by intro impossible; cases impossible)
  have taken := reached.taken_eq_of_ended ended uncancelled
  have shown := reached.shown_eq_of_ended ended
  have reachedLevel : program.skeleton ∈ (start problem).takenDuring calls := by
    rw [taken]
    apply (grammar.levelsBelow_prefix_firstSketches enough).subset
    exact skeleton_mem_levelsBelow isProgram
  have handed : program ∈ (start problem).shownDuring calls := by
    rw [shown]
    exact List.mem_flatMap.mpr
      ⟨program.skeleton, reachedLevel, mem_completions_skeleton isProgram⟩
  exact List.reduceOption_mem_iff.mp handed

/-- The program `e(2)` of the smallest grammar is handed out within some limit. -/
theorem every_program_answered_smallest :
    Grammar.smallest.IsProgram (fun _ _ => [1, 2]) ⟨3, []⟩ (Grammar.smallestProgram 2) ∧
      ∃ (budget : Budget) (calls : List Signals),
        some (Grammar.smallestProgram 2) ∈
          (start (Problem.mk Grammar.smallest (fun _ _ => [1, 2]) ⟨3, []⟩ budget)).answers
            calls := by
  have isProgram : Grammar.smallest.IsProgram (fun _ _ => [1, 2]) ⟨3, []⟩
      (Grammar.smallestProgram 2) := Grammar.isProgram_smallestProgram (by decide)
  rcases every_program_answered _ _ _ _ isProgram with ⟨enough, answered⟩
  rcases answered (Budget.ofLimit enough) (Nat.le_refl enough) with ⟨count, within⟩
  refine ⟨isProgram, Budget.ofLimit enough, List.replicate count Signals.none, ?_⟩
  apply within
  · rw [List.length_replicate]
  · intro signals _
    rfl

end Enumeration
end ProgramSearch
