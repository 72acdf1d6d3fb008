import ProgramSearch.Search

namespace ProgramSearch

/-!
# What becomes of a candidate

A candidate is judged by its value on the sample's inputs.  `Judged` lists the four ways
in which this can go, with what is known of the value in each.  Only a candidate with the
wanted value and a candidate that fails for want of a literal or of an argument decide a
search; every other candidate is reported as incorrect.
-/

universe u

variable {V : Type u}

/-- A missing literal and a missing argument are fatal, and nothing else is. -/
theorem EvalError.isFatal_iff (error : EvalError) :
    error.isFatal = true ↔
      (∃ symbol, error = .missingLiteral symbol) ∨
        ∃ index count, error = .parameterOutOfRange index count := by
  cases error <;> simp [EvalError.isFatal]

/-- The judgements a candidate may receive. -/
inductive Judged (evaluate : Evaluator V) (sample : Sample V) (candidate : Tree V) :
    Except EvalError (Verdict V) → Prop where
  | correct
      (value : evaluate candidate ⟨sample.inputs⟩ = .ok (some sample.output)) :
      Judged evaluate sample candidate (.ok (.correct candidate))
  | incorrect {got : Option V}
      (value : evaluate candidate ⟨sample.inputs⟩ = .ok got)
      (other : got ≠ some sample.output) :
      Judged evaluate sample candidate (.ok (.incorrect candidate got))
  | disqualified {error : EvalError}
      (failure : evaluate candidate ⟨sample.inputs⟩ = .error error)
      (mild : error.isFatal = false) :
      Judged evaluate sample candidate (.ok (.incorrect candidate none))
  | aborted {error : EvalError}
      (failure : evaluate candidate ⟨sample.inputs⟩ = .error error)
      (fatal : error.isFatal = true) :
      Judged evaluate sample candidate (.error error)

/-- A candidate that decides a search: its value is the wanted output, or it fails for
want of a literal or of an argument. -/
def IsDecisive (evaluate : Evaluator V) (sample : Sample V) (candidate : Tree V) : Prop :=
  evaluate candidate ⟨sample.inputs⟩ = .ok (some sample.output) ∨
    (∃ symbol, evaluate candidate ⟨sample.inputs⟩ = .error (.missingLiteral symbol)) ∨
      ∃ index count,
        evaluate candidate ⟨sample.inputs⟩ = .error (.parameterOutOfRange index count)

theorem isDecisive_of_fatal {evaluate : Evaluator V} {sample : Sample V}
    {candidate : Tree V} {error : EvalError}
    (failure : evaluate candidate ⟨sample.inputs⟩ = .error error)
    (fatal : error.isFatal = true) : IsDecisive evaluate sample candidate := by
  rcases error.isFatal_iff.mp fatal with ⟨symbol, rfl⟩ | ⟨index, count, rfl⟩
  · exact Or.inr (Or.inl ⟨symbol, failure⟩)
  · exact Or.inr (Or.inr ⟨index, count, failure⟩)

/-- A candidate decides a search by its value or by a fatal failure. -/
theorem isDecisive_iff (evaluate : Evaluator V) (sample : Sample V) (candidate : Tree V) :
    IsDecisive evaluate sample candidate ↔
      evaluate candidate ⟨sample.inputs⟩ = .ok (some sample.output) ∨
        ∃ error, evaluate candidate ⟨sample.inputs⟩ = .error error ∧
          error.isFatal = true := by
  constructor
  · rintro (value | ⟨symbol, failure⟩ | ⟨index, count, failure⟩)
    · exact Or.inl value
    · exact Or.inr ⟨_, failure, rfl⟩
    · exact Or.inr ⟨_, failure, rfl⟩
  · rintro (value | ⟨error, failure, fatal⟩)
    · exact Or.inl value
    · exact isDecisive_of_fatal failure fatal

instance [DecidableEq V] (evaluate : Evaluator V) (sample : Sample V) (candidate : Tree V) :
    Decidable (IsDecisive evaluate sample candidate) :=
  match evaluated : evaluate candidate ⟨sample.inputs⟩ with
  | .ok value =>
      decidable_of_iff (value = some sample.output) (by
        rw [isDecisive_iff, evaluated]
        simp)
  | .error failure =>
      decidable_of_iff (failure.isFatal = true) (by
        rw [isDecisive_iff, evaluated]
        simp)

/-- Unless nothing decides, there is a first candidate that does. -/
theorem exists_first_decisive [DecidableEq V] (evaluate : Evaluator V) (sample : Sample V)
    (candidates : List (Tree V)) :
    (∀ candidate ∈ candidates, ¬ IsDecisive evaluate sample candidate) ∨
      ∃ earlier candidate later, candidates = earlier ++ candidate :: later ∧
        IsDecisive evaluate sample candidate ∧
          ∀ other ∈ earlier, ¬ IsDecisive evaluate sample other := by
  cases found : candidates.find? fun candidate => IsDecisive evaluate sample candidate with
  | none => exact Or.inl (by simpa using found)
  | some candidate =>
      rcases List.find?_eq_some_iff_append.mp found with ⟨decisive, earlier, later, split, passed⟩
      exact Or.inr
        ⟨earlier, candidate, later, split, by simpa using decisive, by simpa using passed⟩

section Judge

variable [DecidableEq V] {evaluate : Evaluator V} {sample : Sample V} {candidate : Tree V}

theorem judged_judge (evaluate : Evaluator V) (sample : Sample V) (candidate : Tree V) :
    Judged evaluate sample candidate (judge evaluate sample candidate) := by
  unfold judge
  split
  · rename_i value evaluated
    split
    · rename_i same
      exact .correct (same ▸ evaluated)
    · rename_i different
      exact .incorrect evaluated fun same => different (Option.some.inj same)
  · rename_i evaluated
    exact .incorrect evaluated (Option.some_ne_none _).symm
  · rename_i error failed
    split
    · exact .aborted failed ‹_›
    · exact .disqualified failed (Bool.eq_false_iff.mpr ‹_›)

theorem judge_eq_correct
    (value : evaluate candidate ⟨sample.inputs⟩ = .ok (some sample.output)) :
    judge evaluate sample candidate = .ok (.correct candidate) := by
  rw [judge, value]
  exact if_pos rfl

theorem judge_eq_error {error : EvalError}
    (failure : evaluate candidate ⟨sample.inputs⟩ = .error error)
    (fatal : error.isFatal = true) : judge evaluate sample candidate = .error error := by
  rw [judge, failure]
  exact if_pos fatal

theorem judge_eq_incorrect (indecisive : ¬ IsDecisive evaluate sample candidate) :
    ∃ got, judge evaluate sample candidate = .ok (.incorrect candidate got) := by
  have judged := judged_judge evaluate sample candidate
  generalize judge evaluate sample candidate = judgement at judged ⊢
  cases judged with
  | correct value => exact absurd (Or.inl value) indecisive
  | incorrect => exact ⟨_, rfl⟩
  | disqualified => exact ⟨none, rfl⟩
  | aborted failure fatal => exact absurd (isDecisive_of_fatal failure fatal) indecisive

/-- A candidate judged correct has the wanted output as its value. -/
theorem eq_of_judge_correct {program : Tree V}
    (judged : judge evaluate sample candidate = .ok (.correct program)) :
    program = candidate ∧ evaluate candidate ⟨sample.inputs⟩ = .ok (some sample.output) := by
  have reached := judged_judge evaluate sample candidate
  rw [judged] at reached
  cases reached with
  | correct value => exact ⟨rfl, value⟩

/-- A candidate judged incorrect neither has the wanted output as its value nor fails
fatally. -/
theorem not_decisive_of_judge_incorrect {program : Tree V} {got : Option V}
    (judged : judge evaluate sample candidate = .ok (.incorrect program got)) :
    evaluate candidate ⟨sample.inputs⟩ ≠ .ok (some sample.output) ∧
      ∀ error, evaluate candidate ⟨sample.inputs⟩ = .error error →
        error.isFatal = false := by
  have reached := judged_judge evaluate sample candidate
  rw [judged] at reached
  cases reached with
  | incorrect value other =>
      rw [value]
      refine ⟨fun same => other (Except.ok.inj same), ?_⟩
      intro error impossible
      cases impossible
  | disqualified failure mild =>
      rw [failure]
      refine ⟨(by intro impossible; cases impossible), ?_⟩
      intro error same
      cases same
      exact mild

end Judge

end ProgramSearch
