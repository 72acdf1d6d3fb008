import ProgramSearch.Proofs.Search.Steps

namespace ProgramSearch

/-!
# Searches move in lock step with the enumeration

A step asks the enumeration for one candidate and then judges it.  Whatever the judgement
is, a fatal error included, the enumeration has already moved on, and so it stands where
it would stand without any evaluation.  Searches under different evaluators therefore
handle the same candidates in the same order, under any schedule of signals.
-/

universe u

variable {V : Type u} [DecidableEq V]

/-- What a step may report of what the enumeration answered: the end, a verdict on the
candidate, or the error that consumed it. -/
inductive Handled (evaluate : Evaluator V) (sample : Sample V) :
    Option (Tree V) → Except EvalError (Option (Verdict V)) → Prop where
  | ended : Handled evaluate sample none (.ok none)
  | reported {candidate : Tree V} {verdict : Verdict V}
      (judged : Judged evaluate sample candidate (.ok verdict)) :
      Handled evaluate sample (some candidate) (.ok (some verdict))
  | consumed {candidate : Tree V} {error : EvalError}
      (judged : Judged evaluate sample candidate (.error error)) :
      Handled evaluate sample (some candidate) (.error error)

namespace Search

/-- A step handles what the enumeration answers at that moment. -/
theorem handled_step (signals : Signals) (search : Search V) :
    Handled search.evaluate search.enumeration.problem.sample
      (search.enumeration.next? signals).1 (search.step signals).1 := by
  rcases asked : search.enumeration.next? signals with ⟨answer, later⟩
  cases answer with
  | none =>
      rw [step_of_next?_eq_none asked]
      exact .ended
  | some candidate =>
      rw [step_of_next?_eq_some asked]
      have judged :=
        judged_judge search.evaluate search.enumeration.problem.sample candidate
      cases judgement : judge search.evaluate search.enumeration.problem.sample candidate with
      | ok verdict =>
          rw [judgement] at judged
          exact .reported judged
      | error failure =>
          rw [judgement] at judged
          exact .consumed judged

theorem evaluate_after (search : Search V) (calls : List Signals) :
    (search.after calls).evaluate = search.evaluate := by
  induction calls generalizing search with
  | nil => rfl
  | cons signals calls ih => exact (ih _).trans (evaluate_step signals search)

/-- Steps leave the enumeration where as many calls for a program would. -/
theorem enumeration_after (search : Search V) (calls : List Signals) :
    (search.after calls).enumeration = search.enumeration.after calls := by
  induction calls generalizing search with
  | nil => rfl
  | cons signals calls ih =>
      rw [Enumeration.after_cons, ← enumeration_step]
      exact ih _

/-- Every step handles the candidate that the call in its place would answer. -/
theorem handled_reports (search : Search V) (calls : List Signals) :
    List.Forall₂ (Handled search.evaluate search.enumeration.problem.sample)
      (search.enumeration.answers calls) (search.reports calls) := by
  induction calls generalizing search with
  | nil => exact .nil
  | cons signals calls ih =>
      have further := ih (search.step signals).2
      rw [evaluate_step, enumeration_step,
        (Enumeration.call_next? signals search.enumeration).problem_eq] at further
      exact .cons (handled_step signals search) further

end Search

namespace Synthesizer

/-- Two searches under different evaluators and the enumeration keep in lock step.  After
any calls all three stand in the same state of the enumeration, and from there on every
step of either search handles the candidate that the call in its place answers, whatever
has been reported before: an error loses, repeats and displaces no later candidate. -/
theorem lock_step (synthesizer : Synthesizer V) (first second : Evaluator V)
    (sample : Sample V) (earlier later : List Signals) :
    let begun := synthesizer.enumerate sample
    let one := (synthesizer.withEvaluator first).search sample
    let other := (synthesizer.withEvaluator second).search sample
    ((one.after earlier).enumeration = begun.after earlier ∧
        (other.after earlier).enumeration = begun.after earlier) ∧
      List.Forall₂ (Handled first sample) ((begun.after earlier).answers later)
          ((one.after earlier).reports later) ∧
        List.Forall₂ (Handled second sample) ((begun.after earlier).answers later)
          ((other.after earlier).reports later) := by
  intro begun one other
  have same : (begun.after earlier).problem.sample = sample :=
    congrArg Problem.sample (begun.problem_after earlier)
  have handles : ∀ evaluate : Evaluator V,
      let search := (synthesizer.withEvaluator evaluate).search sample
      (search.after earlier).enumeration = begun.after earlier ∧
        List.Forall₂ (Handled evaluate sample) ((begun.after earlier).answers later)
          ((search.after earlier).reports later) := by
    intro evaluate search
    have stands : (search.after earlier).enumeration = begun.after earlier :=
      search.enumeration_after earlier
    have handled := (search.after earlier).handled_reports later
    rw [search.evaluate_after, stands, same] at handled
    exact ⟨stands, handled⟩
  exact ⟨⟨(handles first).1, (handles second).1⟩, (handles first).2, (handles second).2⟩

end Synthesizer

end ProgramSearch
