import ProgramSearch.Proofs.Enumeration.Completeness
import ProgramSearch.Proofs.Enumeration.Lookup
import ProgramSearch.Proofs.Grammar.Multiplicity
import ProgramSearch.Proofs.Sketch.Skeleton

namespace ProgramSearch

/-!
# How often a program is handed out

Without an empty alternative within reach, all copies of a sketch stand in one level, and a
limit that covers this level lets an enumeration take each of them exactly once.  A program
is one completion of its skeleton and of no other sketch, so it is handed out as often as
its skeleton is derived.
-/

universe u

variable {V : Type u}

namespace Grammar

variable {grammar : Grammar}

/-- A table without an empty alternative has none for any symbol. -/
theorem nil_notMem_alternatives (full : ∀ entry ∈ grammar.table.toList, [] ∉ entry.alternatives)
    (symbol : Symbol) : [] ∉ grammar.alternatives symbol := by
  intro empty
  rcases exists_entry_of_mem_alternatives empty with ⟨entry, among, here⟩
  exact full entry among here

theorem IsProgram.isSketch_skeleton {filler : Filler V} {sample : Sample V} {program : Tree V}
    (isProgram : grammar.IsProgram filler sample program) :
    grammar.IsSketch program.skeleton :=
  isSketch_of_mem_level (skeleton_mem_level isProgram.root isProgram.derived)

variable [DecidableEq V]

/-- The number of derivations of a program's skeleton, from the shape of the program. -/
theorem IsProgram.derivationCount_skeleton {filler : Filler V} {sample : Sample V}
    {program : Tree V} (isProgram : grammar.IsProgram filler sample program) :
    grammar.derivationCount program.skeleton =
      program.innerCount.factorial / program.hookProduct * program.choiceProduct grammar := by
  have divides := program.hookProduct_dvd_factorial
  have isSketch := isProgram.isSketch_skeleton
  have formula := derivationCount_mul_hookProduct ⟨isSketch.derived, isSketch.bare⟩
  rw [Tree.innerCount_skeleton, Tree.hookProduct_skeleton, Tree.choiceProduct_skeleton]
    at formula
  apply Nat.eq_of_mul_eq_mul_right (Nat.pos_of_dvd_of_pos divides (Nat.factorial_pos _))
  rw [formula, Nat.mul_right_comm, Nat.div_mul_cancel divides]

/-- First sketches that cover the level of a sketch hold all copies of it. -/
theorem count_firstSketches
    (full : ∀ symbol, grammar.Reachable symbol → [] ∉ grammar.alternatives symbol)
    {goal : Tree V} (root : goal.symbol = grammar.start) {limit : Nat}
    (enough : (grammar.levelsBelow (goal.innerCount + 1) : List (Tree V)).length ≤ limit) :
    (grammar.firstSketches limit).count goal = derivationCount grammar goal := by
  have lower := (grammar.levelsBelow_prefix_firstSketches enough).sublist.count_le goal
  have upper := ((grammar.firstSketches_prefix limit).trans
    (grammar.levelsBelow_prefix (Nat.le_max_left limit (goal.innerCount + 1)))).sublist.count_le
      goal
  rw [count_levelsBelow full root (Nat.lt_succ_self _)] at lower
  rw [count_levelsBelow full root (Nat.le_max_right _ _)] at upper
  exact Nat.le_antisymm upper lower

end Grammar

namespace Enumeration

variable [DecidableEq V]

/-- Among the completions of some sketches, a program stands once for each copy of its
skeleton. -/
theorem count_completions {problem : Problem V}
    (distinct : ∀ symbol, (problem.filler symbol problem.sample).Nodup) {program : Tree V}
    (isProgram : problem.grammar.IsProgram problem.filler problem.sample program)
    {sketches : List (Tree V)}
    (bare : ∀ sketch ∈ sketches, problem.grammar.Bare sketch) :
    (sketches.flatMap problem.completions).count program =
      sketches.count program.skeleton := by
  have others : ∀ sketch, sketch ≠ program.skeleton → sketch ∈ sketches →
      (problem.completions sketch).count program = 0 := by
    intro sketch different among
    apply List.count_eq_zero.mpr
    intro member
    rw [Problem.completions] at member
    split at member
    · have shape := Tree.skeleton_of_mem_completions member
      rw [Tree.skeleton_of_bare (bare sketch among)] at shape
      exact different shape.symm
    · cases member
  have nodup : (problem.completions program.skeleton).Nodup := by
    rw [Problem.completions]
    split
    · exact Tree.nodup_completions distinct _
    · exact List.nodup_nil
  calc (sketches.flatMap problem.completions).count program
      = (sketches.map fun sketch => (problem.completions sketch).count program).sum :=
        List.count_flatMap
    _ = sketches.count program.skeleton *
          (problem.completions program.skeleton).count program :=
        sum_map_eq_count_mul _ _ others
    _ = sketches.count program.skeleton := by
        rw [List.count_eq_one_of_mem nodup (mem_completions_skeleton isProgram), Nat.mul_one]

/-- The exact number of times a program is handed out, if the grammar can look up all that is
within reach of the start symbol, no nonterminal there has an empty alternative, no literal is
offered twice and the limit is large enough: the factorial of the number of inner nodes over the
product of the hooks, times the number of choices among equal alternatives. -/
theorem count_drain (grammar : Grammar) (within : grammar.WithinTable)
    (full : ∀ symbol, grammar.Reachable symbol → grammar.isNonterminal symbol = true →
      [] ∉ grammar.alternatives symbol)
    (filler : Filler V) (sample : Sample V)
    (distinct : ∀ symbol, (filler symbol sample).Nodup)
    (program : Tree V) (isProgram : grammar.IsProgram filler sample program) :
    program.hookProduct ∣ program.innerCount.factorial ∧
      ∃ enough, ∀ (budget : Budget) (signals : Signals),
        enough ≤ budget.limit → budget.isCancelled signals = false →
          ∃ programs final,
            (start (Problem.mk grammar filler sample budget)).drain? signals =
                some (programs, final) ∧
              programs.count program =
                program.innerCount.factorial / program.hookProduct *
                  program.choiceProduct grammar := by
  have nonempty : ∀ symbol, grammar.Reachable symbol → [] ∉ grammar.alternatives symbol :=
    fun symbol reachable empty =>
      full symbol reachable (Grammar.isNonterminal_of_mem_alternatives empty) empty
  let levels : List (Tree V) := grammar.levelsBelow (program.skeleton.innerCount + 1)
  refine ⟨program.hookProduct_dvd_factorial, levels.length, ?_⟩
  intro budget signals enough quiet
  let problem := Problem.mk grammar filler sample budget
  have bare : ∀ sketch ∈ (grammar.firstSketches budget.limit : List (Tree V)),
      grammar.Bare sketch := by
    intro sketch among
    have listed := (grammar.firstSketches_prefix budget.limit).subset among
    have isSketch := Grammar.isSketch_of_mem_levelsBelow listed
    exact ⟨isSketch.derived, isSketch.bare⟩
  have answerable : (start problem).Answerable := .start within
  have drained := answerable.drain?_eq signals
  refine ⟨_, _, drained, ?_⟩
  calc ((start problem).drain signals).1.count program
      = ((grammar.firstSketches budget.limit).flatMap problem.completions).count program := by
        rw [drain_eq_flatMap signals problem quiet]
    _ = (grammar.firstSketches budget.limit).count program.skeleton :=
        count_completions distinct isProgram bare
    _ = grammar.derivationCount program.skeleton :=
        Grammar.count_firstSketches nonempty isProgram.isSketch_skeleton.root enough
    _ = program.innerCount.factorial / program.hookProduct * program.choiceProduct grammar :=
        isProgram.derivationCount_skeleton

/-- Two orders of expanding the children and two choices for each of them make eight copies
of a program. -/
theorem count_drain_doubled :
    (Grammar.doubled.WithinTable ∧
      (∀ symbol, Grammar.doubled.Reachable symbol → Grammar.doubled.isNonterminal symbol = true →
        [] ∉ Grammar.doubled.alternatives symbol) ∧
      Grammar.doubled.IsProgram (fun _ _ => [1, 2]) ⟨3, []⟩ Grammar.doubledProgram) ∧
      ∃ enough, ∀ (budget : Budget) (signals : Signals),
        enough ≤ budget.limit → budget.isCancelled signals = false →
          ∃ programs final,
            (start (Problem.mk Grammar.doubled (fun _ _ => [1, 2]) ⟨3, []⟩ budget)).drain?
                signals = some (programs, final) ∧
              programs.count Grammar.doubledProgram = 8 := by
  have within : Grammar.doubled.WithinTable := Grammar.withinTable_build (by decide)
  have full : ∀ symbol, Grammar.doubled.Reachable symbol →
      Grammar.doubled.isNonterminal symbol = true →
        [] ∉ Grammar.doubled.alternatives symbol :=
    fun symbol _ _ => Grammar.nil_notMem_alternatives (by decide) symbol
  have multiplicity := count_drain Grammar.doubled within full (fun _ _ => [1, 2]) ⟨3, []⟩
    (fun _ => by decide) Grammar.doubledProgram Grammar.isProgram_doubledProgram
  exact ⟨⟨within, full, Grammar.isProgram_doubledProgram⟩, multiplicity.2⟩

/-- A copy that has been overtaken hands out none of its programs, because every enumeration of
more than one sketch breaks off before. -/
theorem drain_overtaken_breaks_off :
    ((∀ symbol, Grammar.overtaken.Reachable symbol →
        Grammar.overtaken.isNonterminal symbol = true →
          [] ∉ Grammar.overtaken.alternatives symbol) ∧
      Grammar.overtaken.IsProgram (fun _ _ => []) ⟨0, []⟩
        (.node ⟨0, 0⟩ none [.leaf ⟨0, 1⟩] : Tree Int64)) ∧
      ∀ (budget : Budget) (signals : Signals),
        2 ≤ budget.limit → budget.isCancelled signals = false →
          (start (Problem.mk Grammar.overtaken (fun _ _ => []) ⟨(0 : Int64), []⟩ budget)).drain?
            signals = none := by
  have full : ∀ symbol, Grammar.overtaken.Reachable symbol →
      Grammar.overtaken.isNonterminal symbol = true →
        [] ∉ Grammar.overtaken.alternatives symbol :=
    fun symbol _ _ => Grammar.nil_notMem_alternatives (by decide) symbol
  refine ⟨⟨full, ?_⟩, fun budget signals enough quiet => ?_⟩
  · constructor
    case root => rfl
    case derived =>
      apply Grammar.Derived.branch _ _ (List.cons_ne_nil _ _)
      · change [⟨0, 1⟩] ∈ Grammar.overtaken.alternatives ⟨0, 0⟩
        decide
      · intro child member
        rw [List.mem_singleton.mp member]
        exact .leaf _ _
    case terminal =>
      intro leaf member
      rw [List.mem_singleton.mp member]
      decide
    case filled =>
      intro leaf member
      rw [List.mem_singleton.mp member]
      rfl
  · exact drain?_of_call?_eq_none (call?_overtaken enough quiet)

end Enumeration
end ProgramSearch
