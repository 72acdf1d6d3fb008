import ProgramSearch.Proofs.Arithmetic.Value
import ProgramSearch.Proofs.Search.Found

namespace ProgramSearch

/-!
# What arithmetic synthesis can find

A word that is not within reach of the constants and the inputs is found under no budget, and
one within reach is found under every budget above some bound, whatever else the candidates
fault at before it.  The program found has the least number of operations, since each of them
comes with the same number of inner nodes.
-/

namespace Arithmetic

variable {arithmetic : Arithmetic} {sample : Sample Int64}

theorem neverFatal (provided : arithmetic.Provided sample) (budget : Budget) :
    (arithmetic.synthesizer budget).NeverFatal sample :=
  fun _ isProgram _ failed => not_fatal provided isProgram failed

/-- Parameters are part of the language exactly when there are inputs. -/
theorem provided_of_inputs {identity : Nat} {constants : List Int64} (nonempty : constants ≠ [])
    (sample : Sample Int64) :
    Provided ⟨identity, constants, !sample.inputs.isEmpty⟩ sample where
  constants := nonempty
  inputs := by
    intro allowed none
    rw [none] at allowed
    cases allowed

theorem argumentCount_of_inputs (identity : Nat) (constants : List Int64)
    (sample : Sample Int64) :
    argumentCount ⟨identity, constants, !sample.inputs.isEmpty⟩ sample = sample.inputs.length := by
  rw [argumentCount]
  cases found : sample.inputs with
  | nil => rfl
  | cons first others =>
      rw [Sample.inputCount, found]
      rfl

/-- No program found has more operations than another solution. -/
theorem operationCount_le_of_found (provided : arithmetic.Provided sample) {budget : Budget}
    {signals : Signals} {program : Tree Int64} {explored : Nat}
    (found : (arithmetic.synthesizer budget).synthesize signals sample =
      .ok (.found program explored))
    {other : Tree Int64} (better : (arithmetic.synthesizer budget).IsSolution sample other) :
    arithmetic.operationCount program ≤ arithmetic.operationCount other := by
  rcases Synthesizer.exists_split_of_found found with ⟨earlier, later, candidates, solution, passed⟩
  rcases (isSolution_iff provided).mp solution with ⟨expression, _, rfl, _⟩
  rcases (isSolution_iff provided).mp better with ⟨shorter, _, rfl, _⟩
  rw [operationCount_program, operationCount_program]
  by_contra fewer
  have before : shorter.program arithmetic ∈ earlier := by
    apply Enumeration.mem_earlier_of_innerCount_lt candidates better.isProgram
    rw [innerCount_program, innerCount_program]
    omega
  exact passed _ before (Or.inl better.correct)

/-- What the arithmetic can find.  Over constants, of which there are some, and inputs, with
parameters exactly when there are inputs: an output within reach of them is found under every
budget above some bound, unless it is cancelled, and one that is not is never found.  The
program found evaluates to the output, with the least number of operations among all programs
that do.  As in any array, the positions of the inputs have to fit in a word. -/
theorem found_iff_within_reach (identity : Nat) (constants : List Int64) (nonempty : constants ≠ [])
    (sample : Sample Int64) :
    let arithmetic : Arithmetic := ⟨identity, constants, !sample.inputs.isEmpty⟩
    (∀ budget, Synthesizer.create arithmetic.language budget =
        .ok (arithmetic.synthesizer budget)) ∧
      (sample.inputs.length ≤ 2 ^ 63 →
        WithinReach (constants ++ sample.inputs) sample.output.toInt →
        ∃ enough, ∀ (budget : Budget) (signals : Signals), enough ≤ budget.limit →
          budget.isCancelled signals = false →
            ∃ program explored, (arithmetic.synthesizer budget).synthesize signals sample =
              .ok (.found program explored)) ∧
      (¬ WithinReach (constants ++ sample.inputs) sample.output.toInt →
        ∀ budget signals program explored,
          (arithmetic.synthesizer budget).synthesize signals sample ≠
            .ok (.found program explored)) ∧
      ∀ budget signals program explored,
        (arithmetic.synthesizer budget).synthesize signals sample =
            .ok (.found program explored) →
          arithmetic.evaluate program ⟨sample.inputs⟩ = .ok (some sample.output) ∧
            ∀ other, arithmetic.grammar.IsProgram arithmetic.filler sample other →
              arithmetic.evaluate other ⟨sample.inputs⟩ = .ok (some sample.output) →
                arithmetic.operationCount program ≤ arithmetic.operationCount other := by
  intro arithmetic
  have provided : arithmetic.Provided sample := provided_of_inputs nonempty sample
  have count : arithmetic.argumentCount sample = sample.inputs.length :=
    argumentCount_of_inputs identity constants sample
  refine ⟨arithmetic.create_language, ?_, ?_, ?_⟩
  · intro positioned reach
    rcases Expression.attains_of_withinReach positioned reach with
      ⟨expression, word, drawn, value, same⟩
    rw [Int64.toInt_inj.mp same] at value
    refine ⟨(arithmetic.grammar.levelsBelow
      ((expression.program arithmetic).innerCount + 1) : List (Tree Int64)).length, ?_⟩
    intro budget signals enough quiet
    have solution : (arithmetic.synthesizer budget).IsSolution sample
        (expression.program arithmetic) :=
      (isSolution_iff provided).mpr ⟨expression, count ▸ drawn, rfl, value⟩
    exact Synthesizer.exists_found_of_isSolution (neverFatal provided budget) solution enough quiet
  · intro outside budget signals program explored found
    rcases Synthesizer.exists_split_of_found found with ⟨_, _, _, solution, _⟩
    rcases (isSolution_iff provided).mp solution with ⟨expression, drawn, _, value⟩
    exact outside (Expression.withinReach_of_value drawn value)
  · intro budget signals program explored found
    rcases Synthesizer.exists_split_of_found found with ⟨_, _, _, solution, _⟩
    refine ⟨solution.correct, ?_⟩
    intro other isProgram correct
    exact operationCount_le_of_found provided found ⟨isProgram, correct⟩

/-- Over the constant one and the input three, seven is found with at most two operations, and
over the constant zero alone one is never found. -/
theorem found_iff_within_reach_seven :
    (∃ budget program explored,
      (synthesizer ⟨0, [1], true⟩ budget).synthesize Signals.none ⟨7, [3]⟩ =
          .ok (.found program explored) ∧
        evaluate ⟨0, [1], true⟩ program ⟨[3]⟩ = .ok (some 7) ∧
          operationCount ⟨0, [1], true⟩ program ≤ 2) ∧
      ∀ budget signals program explored,
        (synthesizer ⟨0, [0], false⟩ budget).synthesize signals ⟨1, []⟩ ≠
          .ok (.found program explored) := by
  let three : Expression := .parameter 0
  let seven : Expression := .operation .add (.operation .add three three) (.constant 1)
  have input : three.Over [1] 1 := .parameter (by decide) (by decide)
  have drawn : seven.Over [1] 1 := .operation (.operation input input) (.constant (by decide))
  have reach : WithinReach [1, 3] 7 := by
    have three : WithinReach [1, 3] 3 := @WithinReach.given _ 3 (by decide)
    have one : WithinReach [1, 3] 1 := @WithinReach.given _ 1 (by decide)
    have six : WithinReach [1, 3] (3 + 3) := .sum three three ⟨by decide, by decide⟩
    exact .sum six one ⟨by decide, by decide⟩
  have zero : ∀ value, WithinReach [0] value → value = 0 := by
    intro value reach
    induction reach with
    | given member => rw [List.mem_singleton.mp member, Int64.toInt_zero]
    | sum _ _ _ onLeft onRight => rw [onLeft, onRight, Int.add_zero]
    | difference _ _ _ onLeft onRight => rw [onLeft, onRight, Int.sub_zero]
    | product _ _ _ onLeft onRight => rw [onLeft, onRight, Int.mul_zero]
  rcases found_iff_within_reach 0 [1] (by decide) ⟨7, [3]⟩ with ⟨_, findable, _, least⟩
  rcases findable (by decide) reach with ⟨enough, finds⟩
  rcases finds (Budget.ofLimit enough) Signals.none (Nat.le_refl _) rfl with
    ⟨program, explored, found⟩
  rcases least _ _ _ _ found with ⟨correct, fewest⟩
  refine ⟨⟨_, program, explored, found, correct, ?_⟩, ?_⟩
  · apply fewest (seven.program ⟨0, [1], true⟩) (isProgram_program drawn)
    decide
  · apply (found_iff_within_reach 0 [0] (by decide) ⟨1, []⟩).2.2.1
    intro reach
    exact absurd (zero 1 reach) (by decide)

end Arithmetic

end ProgramSearch
