import ProgramSearch.Proofs.Enumeration.Completeness
import ProgramSearch.Proofs.Search.Steps

namespace ProgramSearch

/-!
# When nothing is found there is nothing to find

A search that ends without a program has judged every program of its drained enumeration
incorrect.  If it ends because nothing waits, every program of the grammar was among
them: the reason is the one that the enumeration gave, and never a default.
-/

universe u

variable {V : Type u}

namespace Search

variable [DecidableEq V]

/-- A search that ends without a program reports the end of its drained enumeration and
has judged every program of it incorrect. -/
theorem drain_of_run_eq_exhausted {signals : Signals} {search : Search V} {explored : Nat}
    {reason : StopReason}
    (ended : search.run signals = .ok (.exhausted explored reason)) :
    reason = (search.enumeration.drain signals).2.exhausted.getD .frontierEmpty ∧
      ∀ candidate ∈ (search.enumeration.drain signals).1, ∃ program got,
        judge search.evaluate search.enumeration.problem.sample candidate =
          .ok (.incorrect program got) := by
  fun_induction run signals search with
  | case1 => cases ended
  | case2 search final stepped =>
      rw [Enumeration.drain_of_next?_eq_none (next?_of_step_eq_none stepped)]
      cases ended
      constructor
      · rfl
      · intro candidate impossible
        cases impossible
  | case3 => cases ended
  | case4 search later judged got stepped ih =>
      rcases judge_of_step stepped with ⟨sameEvaluator, candidate, shown, verdict⟩
      have kept := (Enumeration.call_next? signals search.enumeration).problem_eq
      rw [shown] at kept
      rcases ih ended with ⟨sameReason, others⟩
      rw [Enumeration.drain_of_next?_eq_some shown]
      refine ⟨sameReason, ?_⟩
      intro other member
      rcases List.mem_cons.mp member with rfl | further
      · rw [← kept]
        exact ⟨_, _, verdict⟩
      · rw [← kept, ← sameEvaluator]
        exact others other further

end Search

namespace Synthesizer

variable [DecidableEq V]

/-- A negative answer is final: if a synthesis ends because nothing waits any more, then
no program of the grammar has the wanted output as its value, and none fails fatally. -/
theorem no_program_of_frontierEmpty (synthesizer : Synthesizer V) (signals : Signals)
    (sample : Sample V) (explored : Nat)
    (ended : synthesizer.synthesize signals sample = .ok (.exhausted explored .frontierEmpty))
    (program : Tree V)
    (isProgram : synthesizer.language.grammar.IsProgram synthesizer.language.filler sample
      program) :
    synthesizer.language.evaluate program ⟨sample.inputs⟩ ≠ .ok (some sample.output) ∧
      ∀ error, synthesizer.language.evaluate program ⟨sample.inputs⟩ = .error error →
        error.isFatal = false := by
  rcases Search.drain_of_run_eq_exhausted (run_of_synthesize ended) with
    ⟨reported, rejected⟩
  rcases Enumeration.reached_drain signals (synthesizer.problem sample) with
    ⟨taken, reached, finished⟩
  -- The end has a reason of its own, so the default in the report is never used.
  rcases Option.isSome_iff_exists.mp finished with ⟨reason, given⟩
  have same : .frontierEmpty = reason := by
    rw [search, enumerate, given] at reported
    exact reported
  have dry := reached.justified reason given
  rw [← same] at dry
  have shown := reached.mem_shown_of_dry finished dry isProgram
  rcases rejected program shown with ⟨judged, got, verdict⟩
  exact not_decisive_of_judge_incorrect verdict

/-- A synthesis over the smallest grammar with the literals one and two, in which the
value of a program is the literal of its first child. -/
def smallest : Synthesizer Nat where
  language :=
    { grammar := Grammar.smallest
      evaluate := fun program _ => .ok (program.children.head?.bind Tree.literal)
      filler := fun _ _ => [1, 2] }
  budget := Budget.standard
  valid := by decide

/-- Three is not among the literals, so its search runs dry. -/
theorem synthesize_smallest :
    smallest.synthesize Signals.none ⟨3, []⟩ = .ok (.exhausted 2 .frontierEmpty) := by
  have first : ((smallest.search ⟨3, []⟩).step Signals.none).1 =
      .ok (some (.incorrect (Grammar.smallestProgram 1) (some 1))) := by decide +kernel
  have second : (((smallest.search ⟨3, []⟩).step Signals.none).2.step Signals.none).1 =
      .ok (some (.incorrect (Grammar.smallestProgram 2) (some 2))) := by decide +kernel
  have third : ((((smallest.search ⟨3, []⟩).step Signals.none).2.step
      Signals.none).2.step Signals.none).1 = .ok none := by decide +kernel
  rw [synthesize, Search.run_of_step_eq_incorrect first,
    Search.run_of_step_eq_incorrect second, Search.run_of_step_eq_none third]
  decide +kernel

theorem no_program_of_frontierEmpty_smallest :
    smallest.synthesize Signals.none ⟨3, []⟩ = .ok (.exhausted 2 .frontierEmpty) ∧
      Grammar.smallest.IsProgram (fun _ _ => [1, 2]) ⟨3, []⟩ (Grammar.smallestProgram 2) ∧
      smallest.language.evaluate (Grammar.smallestProgram 2) ⟨[]⟩ ≠ .ok (some 3) ∧
      ∀ error, smallest.language.evaluate (Grammar.smallestProgram 2) ⟨[]⟩ = .error error →
        error.isFatal = false := by
  have isProgram : Grammar.smallest.IsProgram (fun _ _ => [1, 2]) ⟨3, []⟩
      (Grammar.smallestProgram 2) := Grammar.isProgram_smallestProgram (by decide)
  exact ⟨synthesize_smallest, isProgram,
    no_program_of_frontierEmpty smallest Signals.none ⟨3, []⟩ 2 synthesize_smallest
      (Grammar.smallestProgram 2) isProgram⟩

end Synthesizer

end ProgramSearch
