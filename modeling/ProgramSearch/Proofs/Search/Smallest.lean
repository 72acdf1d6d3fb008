import ProgramSearch.Proofs.Enumeration.SizeOrder
import ProgramSearch.Proofs.Enumeration.Soundness
import ProgramSearch.Proofs.Search.Absence

namespace ProgramSearch

/-!
# The program found is a smallest one

A search that ends with a program has judged every program handed out before it incorrect.
Programs with fewer inner nodes are handed out before those with more, so no correct program
has fewer inner nodes than the one found.
-/

universe u

variable {V : Type u}

namespace Search

variable [DecidableEq V]

/-- A search that ends with a program has judged all programs handed out before it
incorrect, and this one correct. -/
theorem answers_of_run_eq_found {signals : Signals} {search : Search V} {program : Tree V}
    {explored : Nat} (found : search.run signals = .ok (.found program explored)) :
    ∃ earlier : List (Tree V),
      search.enumeration.answers (List.replicate (earlier.length + 1) signals) =
          (earlier ++ [program]).map some ∧
        search.evaluate program ⟨search.enumeration.problem.sample.inputs⟩ =
            .ok (some search.enumeration.problem.sample.output) ∧
          ∀ candidate ∈ earlier, ∃ judged got,
            judge search.evaluate search.enumeration.problem.sample candidate =
              .ok (.incorrect judged got) := by
  fun_induction run signals search with
  | case1 => cases found
  | case2 => cases found
  | case3 search later judged stepped =>
      rcases judge_of_step stepped with ⟨_, candidate, shown, verdict⟩
      have kept := (Enumeration.call_next? signals search.enumeration).problem_eq
      rw [shown] at kept
      rw [kept] at verdict
      rcases eq_of_judge_correct verdict with ⟨rfl, value⟩
      cases found
      refine ⟨[], ?_, value, ?_⟩
      · simp [Enumeration.answers, shown]
      · intro other impossible
        cases impossible
  | case4 search later judged got stepped ih =>
      rcases judge_of_step stepped with ⟨sameEvaluator, candidate, shown, verdict⟩
      have kept := (Enumeration.call_next? signals search.enumeration).problem_eq
      rw [shown] at kept
      rcases ih found with ⟨earlier, answered, value, others⟩
      rw [sameEvaluator, kept] at value others
      rw [kept] at verdict
      refine ⟨candidate :: earlier, ?_, value, ?_⟩
      · rw [List.length_cons, List.replicate_succ, Enumeration.answers, shown, answered]
        rfl
      · intro other member
        rcases List.mem_cons.mp member with rfl | further
        · exact ⟨_, _, verdict⟩
        · exact others other further

end Search

namespace Synthesizer

/-- A program of the language with the sample's output as its value on the sample's
inputs. -/
structure IsSolution (synthesizer : Synthesizer V) (sample : Sample V) (program : Tree V) :
    Prop where
  isProgram : synthesizer.language.grammar.IsProgram synthesizer.language.filler sample program
  correct : synthesizer.language.evaluate program ⟨sample.inputs⟩ = .ok (some sample.output)

variable [DecidableEq V]

/-- The program found is a solution, and no solution has fewer inner nodes. -/
theorem found_is_smallest (synthesizer : Synthesizer V) (signals : Signals)
    (sample : Sample V) (program : Tree V) (explored : Nat)
    (found : synthesizer.synthesize signals sample = .ok (.found program explored)) :
    synthesizer.IsSolution sample program ∧
      ∀ other, synthesizer.IsSolution sample other → program.innerCount ≤ other.innerCount := by
  rcases Search.answers_of_run_eq_found (run_of_synthesize found) with
    ⟨earlier, answered, value, rejected⟩
  have reached := Enumeration.reached_run (synthesizer.problem sample)
    (List.replicate (earlier.length + 1) signals)
  have shown : (Enumeration.start (synthesizer.problem sample)).shownDuring
      (List.replicate (earlier.length + 1) signals) = earlier ++ [program] := by
    rw [Enumeration.shownDuring, List.reduceOption]
    refine (congrArg (List.filterMap id) answered).trans ?_
    rw [List.filterMap_map]
    exact List.filterMap_some
  rw [shown] at reached
  have last : program ∈ earlier ++ [program] := by simp
  refine ⟨⟨reached.isProgram last, value⟩, ?_⟩
  intro other solution
  by_contra fewer
  have before := reached.mem_shown_of_innerCount_lt last solution.isProgram
    (Nat.lt_of_not_le fewer)
  rcases List.mem_append.mp before with among | only
  · rcases rejected other among with ⟨judged, got, verdict⟩
    exact (not_decisive_of_judge_incorrect verdict).1 solution.correct
  · rw [List.mem_singleton.mp only] at fewer
    exact fewer (Nat.le_refl _)

end Synthesizer

namespace Grammar

/-- The program of the looping grammar with a literal below a number of further nodes. -/
def loopingProgram : Nat → V → Tree V
  | 0, value => .node ⟨0, 0⟩ none [.node ⟨0, 1⟩ (some value) []]
  | depth + 1, value => .node ⟨0, 0⟩ none [loopingProgram depth value]

theorem symbol_loopingProgram (depth : Nat) (value : V) :
    (loopingProgram depth value).symbol = ⟨0, 0⟩ := by
  cases depth <;> rfl

theorem leaves_loopingProgram (depth : Nat) (value : V) :
    (loopingProgram depth value).leaves = [.node ⟨0, 1⟩ (some value) []] := by
  induction depth with
  | zero => rfl
  | succ depth ih =>
      rw [loopingProgram, Tree.leaves_node_cons, List.flatMap_singleton, ih]

theorem isProgram_loopingProgram {filler : Filler V} {sample : Sample V} {value : V}
    (offered : value ∈ filler ⟨0, 1⟩ sample) (depth : Nat) :
    looping.IsProgram filler sample (loopingProgram depth value) where
  root := symbol_loopingProgram depth value
  derived := by
    induction depth with
    | zero =>
        apply Derived.branch
        · exact List.cons_ne_nil _ _
        · change [⟨0, 1⟩] ∈ looping.alternatives ⟨0, 0⟩
          decide
        · intro child member
          rw [List.mem_singleton.mp member]
          exact .leaf _ _
    | succ depth ih =>
        apply Derived.branch
        · exact List.cons_ne_nil _ _
        · rw [List.map_singleton, symbol_loopingProgram]
          decide
        · intro child member
          rw [List.mem_singleton.mp member]
          exact ih
  terminal := by
    intro leaf member
    rw [leaves_loopingProgram] at member
    rw [List.mem_singleton.mp member]
    change looping.isTerminal ⟨0, 1⟩ = true
    decide
  filled := by
    intro leaf member
    rw [leaves_loopingProgram] at member
    rw [List.mem_singleton.mp member]
    exact offered

end Grammar

namespace Synthesizer

/-- A synthesis over the looping grammar with the literals one and two, in which the value
of a program is the literal of its only leaf. -/
def looping : Synthesizer Nat where
  language :=
    { grammar := Grammar.looping
      evaluate := fun program _ => .ok (program.leaves.head?.bind Tree.literal)
      filler := fun _ _ => [1, 2] }
  budget := Budget.standard
  valid := by decide

theorem isSolution_loopingProgram (depth : Nat) :
    looping.IsSolution ⟨2, []⟩ (Grammar.loopingProgram depth 2) where
  isProgram := Grammar.isProgram_loopingProgram (by decide) depth
  correct := by
    change Except.ok (_ : Option Nat) = _
    rw [Grammar.leaves_loopingProgram]
    rfl

/-- The sketch `e` is taken twice and `e(e)` once before the program `e(c)` is found. -/
theorem synthesize_looping :
    looping.synthesize Signals.none ⟨2, []⟩ =
      .ok (.found (Grammar.loopingProgram 0 2) 4) := by
  have first : ((looping.search ⟨2, []⟩).step Signals.none).1 =
      .ok (some (.incorrect (Grammar.loopingProgram 0 1) (some 1))) := by decide +kernel
  have second : (((looping.search ⟨2, []⟩).step Signals.none).2.step Signals.none).1 =
      .ok (some (.correct (Grammar.loopingProgram 0 2))) := by decide +kernel
  rw [synthesize, Search.run_of_step_eq_incorrect first,
    Search.run_of_step_eq_correct second]
  decide +kernel

/-- Of the infinitely many solutions over the looping grammar, none has fewer inner nodes
than the one found; one with a node more is named. -/
theorem found_is_smallest_looping :
    looping.synthesize Signals.none ⟨2, []⟩ =
        .ok (.found (Grammar.loopingProgram 0 2) 4) ∧
      looping.IsSolution ⟨2, []⟩ (Grammar.loopingProgram 1 2) ∧
      looping.IsSolution ⟨2, []⟩ (Grammar.loopingProgram 0 2) ∧
      (Grammar.loopingProgram 0 2).innerCount ≤ (Grammar.loopingProgram 1 2).innerCount := by
  have least := found_is_smallest looping Signals.none ⟨2, []⟩ _ 4 synthesize_looping
  exact ⟨synthesize_looping, isSolution_loopingProgram 1, least.1,
    least.2 _ (isSolution_loopingProgram 1)⟩

end Synthesizer

end ProgramSearch
