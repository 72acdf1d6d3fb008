import ProgramSearch.Proofs.Enumeration.Completeness
import ProgramSearch.Proofs.Grammar.Rewriting
import ProgramSearch.Proofs.Sketch.Skeleton

namespace ProgramSearch
namespace Enumeration

/-!
# Smaller programs come first

The levels below a number hold sketches with fewer inner nodes only, and the skeletons of
all programs with fewer inner nodes.  So when a program has been handed out, every program
with fewer inner nodes has been handed out too, whatever the limit and the signals are.
-/

universe u

variable {V : Type u}

/-- A completion of a sketch from the levels below a number has fewer inner nodes. -/
theorem innerCount_lt_of_mem_levelsBelow {problem : Problem V} {count : Nat}
    {program : Tree V}
    (member : program ∈ (problem.grammar.levelsBelow count).flatMap problem.completions) :
    program.innerCount < count := by
  rcases List.mem_flatMap.mp member with ⟨sketch, among, completion⟩
  rcases List.mem_flatMap.mp among with ⟨level, below, here⟩
  have same : program.innerCount = sketch.innerCount := by
    rw [Problem.completions] at completion
    split at completion
    · exact Tree.innerCount_of_mem_completions completion
    · cases completion
  calc program.innerCount
      = sketch.innerCount := same
    _ ≤ level := Grammar.innerCount_le_of_mem_level here
    _ < count := List.mem_range.mp below

/-- A program with fewer inner nodes is a completion of a sketch from the levels below. -/
theorem mem_completions_levelsBelow {problem : Problem V} {count : Nat} {program : Tree V}
    (isProgram : problem.grammar.IsProgram problem.filler problem.sample program)
    (fewer : program.innerCount < count) :
    program ∈ (problem.grammar.levelsBelow count).flatMap problem.completions := by
  have here := Grammar.skeleton_mem_level isProgram.root isProgram.derived
  have among : program.skeleton ∈ problem.grammar.levelsBelow count :=
    List.mem_flatMap.mpr ⟨program.innerCount, List.mem_range.mpr fewer, here⟩
  exact List.mem_flatMap.mpr ⟨_, among, mem_completions_skeleton isProgram⟩

/-- Once a program has been handed out, so have all programs with fewer inner nodes. -/
theorem Reached.mem_shown_of_innerCount_lt {problem : Problem V}
    {taken shown : List (Tree V)} {state : Enumeration V}
    (reached : Reached problem taken shown state) {program smaller : Tree V}
    (handed : program ∈ shown)
    (isProgram : problem.grammar.IsProgram problem.filler problem.sample smaller)
    (fewer : smaller.innerCount < program.innerCount) : smaller ∈ shown := by
  have absent : program ∉ (problem.grammar.levelsBelow program.innerCount).flatMap
      problem.completions := fun member =>
    Nat.lt_irrefl _ (innerCount_lt_of_mem_levelsBelow member)
  have shownFirst : shown <+: taken.flatMap problem.completions := by
    rw [← reached.handed]
    exact List.prefix_append _ _
  rcases reached.follows.early with ⟨count, early⟩
  have takenEarly := ((List.prefix_append taken _).trans early).trans
    (problem.grammar.levelsBelow_prefix (Nat.le_max_left count program.innerCount))
  have levelsEarly := problem.grammar.levelsBelow_prefix (V := V)
    (Nat.le_max_right count program.innerCount)
  rcases List.prefix_or_prefix_of_prefix takenEarly levelsEarly with inside | whole
  · exact absurd ((shownFirst.trans (inside.flatMap _)).subset handed) absent
  · -- All levels of smaller sketches have been taken, and more than their completions shown.
    rcases List.prefix_or_prefix_of_prefix shownFirst (whole.flatMap problem.completions)
      with part | all
    · exact absurd (part.subset handed) absent
    · exact all.subset (mem_completions_levelsBelow isProgram fewer)

end Enumeration
end ProgramSearch
