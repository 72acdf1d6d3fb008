import ProgramSearch.Proofs.Enumeration.Ending
import ProgramSearch.Proofs.Search.Judgement

namespace ProgramSearch

/-!
# What a run makes of its first step

A step asks the enumeration for one candidate and judges it.  An error, a correct
candidate and the end of the enumeration settle a run; behind a candidate judged
incorrect it goes on as if it began there.
-/

universe u

namespace Search

variable {V : Type u} [DecidableEq V] {signals : Signals} {search : Search V}

theorem evaluate_step (signals : Signals) (search : Search V) :
    (search.step signals).2.evaluate = search.evaluate := by
  unfold step
  split <;> rfl

theorem step_of_next?_eq_some {candidate : Tree V} {later : Enumeration V}
    (shown : search.enumeration.next? signals = (some candidate, later)) :
    search.step signals =
      ((judge search.evaluate search.enumeration.problem.sample candidate).map some,
        { search with enumeration := later }) := by
  have kept := (Enumeration.call_next? signals search.enumeration).problem_eq
  rw [shown] at kept
  rw [step, shown, ← kept]

theorem step_of_next?_eq_none {final : Enumeration V}
    (ended : search.enumeration.next? signals = (none, final)) :
    search.step signals = (.ok none, { search with enumeration := final }) := by
  rw [step, ended]

/-- A step without a verdict has met the end of the enumeration. -/
theorem next?_of_step_eq_none {later : Search V}
    (stepped : search.step signals = (.ok none, later)) :
    search.enumeration.next? signals = (none, later.enumeration) := by
  unfold step at stepped
  split at stepped
  · rename_i final ended
    cases stepped
    exact ended
  · rename_i candidate rest shown
    rcases Prod.mk.inj stepped with ⟨verdict, _⟩
    cases judged : judge search.evaluate rest.problem.sample candidate with
    | error failure =>
        rw [judged] at verdict
        cases verdict
    | ok reached =>
        rw [judged] at verdict
        cases verdict

/-- A step with a verdict has judged the next candidate of the enumeration. -/
theorem judge_of_step {later : Search V} {verdict : Verdict V}
    (stepped : search.step signals = (.ok (some verdict), later)) :
    later.evaluate = search.evaluate ∧
      ∃ candidate, search.enumeration.next? signals = (some candidate, later.enumeration) ∧
        judge search.evaluate later.enumeration.problem.sample candidate = .ok verdict := by
  unfold step at stepped
  split at stepped
  · cases stepped
  · rename_i candidate rest shown
    rcases Prod.mk.inj stepped with ⟨answer, rfl⟩
    refine ⟨rfl, candidate, shown, ?_⟩
    cases judged : judge search.evaluate rest.problem.sample candidate with
    | error failure =>
        rw [judged] at answer
        cases answer
    | ok reached =>
        rw [judged] at answer
        cases answer
        rfl

theorem run_of_step_eq_error {failure : EvalError}
    (failed : (search.step signals).1 = .error failure) :
    search.run signals = .error failure := by
  rw [run]
  split
  all_goals
    rename_i stepped
    rw [stepped] at failed
    cases failed
  rfl

theorem run_of_step_eq_none (ended : (search.step signals).1 = .ok none) :
    search.run signals = .ok (.exhausted (search.step signals).2.enumeration.explored
      ((search.step signals).2.enumeration.exhausted.getD .frontierEmpty)) := by
  rw [run]
  split
  all_goals
    rename_i stepped
    rw [stepped] at ended
    cases ended
  rw [stepped]

theorem run_of_step_eq_correct {program : Tree V}
    (accepted : (search.step signals).1 = .ok (some (.correct program))) :
    search.run signals =
      .ok (.found program (search.step signals).2.enumeration.explored) := by
  rw [run]
  split
  all_goals
    rename_i stepped
    rw [stepped] at accepted
    cases accepted
  rw [stepped]

/-- A run goes on behind a candidate judged incorrect. -/
theorem run_of_step_eq_incorrect {judged : Tree V} {got : Option V}
    (rejected : (search.step signals).1 = .ok (some (.incorrect judged got))) :
    search.run signals = (search.step signals).2.run signals := by
  rw [run]
  split
  all_goals
    rename_i stepped
    rw [stepped] at rejected
    cases rejected
  rw [stepped]

end Search

namespace Synthesizer

variable {V : Type u} [DecidableEq V] {synthesizer : Synthesizer V} {signals : Signals}
  {sample : Sample V}

theorem run_of_synthesize {outcome : Outcome V}
    (answered : synthesizer.synthesize signals sample = .ok outcome) :
    (synthesizer.search sample).run signals = .ok outcome := by
  rw [synthesize] at answered
  cases result : (synthesizer.search sample).run signals with
  | error failure =>
      rw [result] at answered
      cases answered
  | ok found =>
      rw [result] at answered
      cases answered
      rfl

theorem synthesize_of_run {outcome : Outcome V}
    (ran : (synthesizer.search sample).run signals = .ok outcome) :
    synthesizer.synthesize signals sample = .ok outcome := by
  rw [synthesize, ran]

theorem synthesize_eq_error_iff {error : SynthesisError} :
    synthesizer.synthesize signals sample = .error error ↔
      ∃ failure, error = .evaluation failure ∧
        (synthesizer.search sample).run signals = .error failure := by
  rw [synthesize]
  cases (synthesizer.search sample).run signals <;> simp [eq_comm]

theorem synthesize_congr {other : Synthesizer V}
    (same : (other.search sample).run signals = (synthesizer.search sample).run signals) :
    other.synthesize signals sample = synthesizer.synthesize signals sample := by
  rw [synthesize, synthesize, same]

end Synthesizer

end ProgramSearch
