import ProgramSearch.Proofs.Enumeration.Ending

namespace ProgramSearch
namespace Enumeration

/-!
# An enumeration goes through the levels in order

Without a token to watch, an enumeration is determined by its grammar, its literals and
its limit.  At any moment the sketches taken and the sketches waiting are a beginning of
the sequence of all levels, and when it has been drained it has handed out the
completions of the first sketches of that sequence, as many as the limit allows.
-/

universe u

variable {V : Type u}

/-- The completions that a problem allows for some sketches are those of the sketches
with nothing left to expand. -/
theorem flatMap_completions_eq (problem : Problem V) (sketches : List (Tree V)) :
    sketches.flatMap problem.completions =
      (sketches.filter fun sketch =>
          (sketch.nonterminalLeaves problem.grammar).isEmpty).flatMap
        (Tree.completions problem.filler problem.sample) := by
  induction sketches with
  | nil => rfl
  | cons sketch sketches ih =>
      rw [List.flatMap_cons, ih, Problem.completions, List.filter_cons]
      split
      · rw [List.flatMap_cons]
      · rw [List.nil_append]

/-- Enumeration in level order.  After any calls, the sketches taken and the sketches
waiting are the first sketches of the levels.  Drained, the enumeration has handed out
the completions of the complete sketches among as many first sketches as the limit says,
and it has taken that many or all there are.  It ends because nothing waits when the
levels hold no more sketches than the limit, and because the limit is spent otherwise. -/
theorem level_order (grammar : Grammar) (filler : Filler V) (sample : Sample V)
    (limit : Nat) :
    let begun := start (Problem.mk grammar filler sample (Budget.ofLimit limit))
    (∀ calls : List Signals,
      begun.takenDuring calls ++ (begun.after calls).worklist.toList =
          grammar.firstSketches ((begun.after calls).explored + (begun.after calls).frontier) ∧
        (begun.after calls).explored = (begun.takenDuring calls).length ∧
        (begun.after calls).frontier = (begun.after calls).worklist.toList.length) ∧
      ∀ signals : Signals,
        (begun.drain signals).1 =
            ((grammar.firstSketches limit).filter fun sketch =>
                (sketch.nonterminalLeaves grammar).isEmpty).flatMap
              (Tree.completions filler sample) ∧
          ((begun.drain signals).2.explored : ℕ∞) = min (limit : ℕ∞) (grammar.sketchCount V) ∧
          ((begun.drain signals).2.exhausted = some .frontierEmpty ↔
            grammar.sketchCount V ≤ limit) ∧
          ((begun.drain signals).2.exhausted = some .budgetSpent ↔
            limit < grammar.sketchCount V) := by
  intro begun
  constructor
  · intro calls
    have reached := reached_run (Problem.mk grammar filler sample (Budget.ofLimit limit)) calls
    have waiting := Queue.length_toList (begun.after calls).worklist
    refine ⟨?_, reached.counted, waiting.symm⟩
    rw [reached.counted, frontier, ← waiting]
    exact reached.follows.eq_firstSketches
  · intro signals
    rcases reached_drain signals (Problem.mk grammar filler sample (Budget.ofLimit limit))
      with ⟨taken, reached, ended⟩
    have quiet := exhausted_drain_ne_cancelled signals
      (Problem.mk grammar filler sample (Budget.ofLimit limit)) rfl
    have all := reached.taken_eq_of_ended ended quiet
    have programs := reached.shown_eq_of_ended ended
    rw [flatMap_completions_eq, all] at programs
    have explored : ((begun.drain signals).2.explored : ℕ∞) =
        min (limit : ℕ∞) (grammar.sketchCount V) := by
      rw [← grammar.length_firstSketches limit, reached.counted, all]
      rfl
    refine ⟨programs, explored, ?_⟩
    -- Only one of the two reasons is left, and it goes with one side of the comparison.
    rcases reached.exhausted_cases ended quiet with ⟨few, dry⟩ | ⟨many, spent⟩
    · exact ⟨iff_of_true dry few,
        iff_of_false (by rw [dry]; decide) (not_lt_of_ge few)⟩
    · exact ⟨iff_of_false (by rw [spent]; decide) (not_le_of_gt many),
        iff_of_true spent many⟩

end Enumeration
end ProgramSearch
