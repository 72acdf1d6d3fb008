import ProgramSearch.Proofs.Enumeration.Reached
import ProgramSearch.Proofs.Sketch.Program

namespace ProgramSearch
namespace Enumeration

/-!
# Only sketches wait and only programs are handed out

Whatever the signals are, the sketches of a run belong to the levels, and the programs
it hands out are completions of such sketches.
-/

universe u

variable {V : Type u}

namespace Reached

variable {problem : Problem V} {taken shown : List (Tree V)} {state : Enumeration V}

theorem isSketch (reached : Reached problem taken shown state) {sketch : Tree V}
    (member : sketch ∈ taken ++ state.worklist.toList) : problem.grammar.IsSketch sketch := by
  rcases reached.follows.early with ⟨count, early⟩
  exact Grammar.isSketch_of_mem_levelsBelow (early.subset member)

/-- A completion that the problem allows for a sketch is a program. -/
theorem isProgram_of_mem_completions {sketch program : Tree V}
    (isSketch : problem.grammar.IsSketch sketch)
    (member : program ∈ problem.completions sketch) :
    problem.grammar.IsProgram problem.filler problem.sample program := by
  rw [Problem.completions] at member
  split at member
  · rename_i complete
    rw [List.isEmpty_iff, Grammar.nonterminalLeaves_eq_nil_iff] at complete
    exact isSketch.isProgram_of_mem_completions complete member
  · cases member

theorem isProgram (reached : Reached problem taken shown state) {program : Tree V}
    (member : program ∈ shown) :
    problem.grammar.IsProgram problem.filler problem.sample program := by
  have completed : program ∈ taken.flatMap problem.completions := by
    rw [← reached.handed]
    exact List.mem_append_left _ member
  rcases List.mem_flatMap.mp completed with ⟨sketch, among, completion⟩
  exact isProgram_of_mem_completions (reached.isSketch (List.mem_append_left _ among))
    completion

end Reached

/-- Soundness of an enumeration: after any calls, under any signals, every sketch that
waits is a sketch of the grammar, and every program handed out is a program of it with
the literals offered. -/
theorem only_sketches_and_programs (problem : Problem V) (calls : List Signals) :
    (∀ sketch ∈ ((start problem).after calls).worklist.toList,
        problem.grammar.IsSketch sketch) ∧
      ∀ program, some program ∈ (start problem).answers calls →
        problem.grammar.IsProgram problem.filler problem.sample program := by
  have reached := reached_run problem calls
  constructor
  · intro sketch waiting
    exact reached.isSketch (List.mem_append_right _ waiting)
  · intro program answered
    exact reached.isProgram (List.reduceOption_mem_iff.mpr answered)

/-- The smallest grammar with the literals one and two. -/
def smallestProblem (limit : Nat) : Problem Nat :=
  ⟨Grammar.smallest, fun _ _ => [1, 2], ⟨3, []⟩, Budget.ofLimit limit⟩

/-- Within one sketch `e(c)` is left waiting, and within two `e(1)` is handed out. -/
theorem only_sketches_and_programs_smallest :
    (Tree.node ⟨0, 0⟩ none [.leaf ⟨0, 1⟩] ∈
        ((start (smallestProblem 1)).after [Signals.none]).worklist.toList ∧
      Grammar.smallest.IsSketch (Tree.node ⟨0, 0⟩ none [.leaf ⟨0, 1⟩] : Tree Nat)) ∧
    some (Grammar.smallestProgram 1) ∈ (start (smallestProblem 2)).answers [Signals.none] ∧
      Grammar.smallest.IsProgram (fun _ _ => [1, 2]) ⟨3, []⟩ (Grammar.smallestProgram 1) := by
  have waiting : Tree.node ⟨0, 0⟩ none [.leaf ⟨0, 1⟩] ∈
      ((start (smallestProblem 1)).after [Signals.none]).worklist.toList := by
    decide +kernel
  have answered : some (Grammar.smallestProgram 1) ∈
      (start (smallestProblem 2)).answers [Signals.none] := by
    decide +kernel
  exact ⟨⟨waiting, (only_sketches_and_programs (smallestProblem 1) [Signals.none]).1 _ waiting⟩,
    answered, (only_sketches_and_programs (smallestProblem 2) [Signals.none]).2 _ answered⟩

end Enumeration
end ProgramSearch
