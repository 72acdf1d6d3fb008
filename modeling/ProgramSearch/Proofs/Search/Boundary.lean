import ProgramSearch.Proofs.Enumeration.Limit
import ProgramSearch.Proofs.Search.Steps
import ProgramSearch.Proofs.Sketch.Program

namespace ProgramSearch

/-!
# The exact limit a synthesis needs

Two searches that differ in their limit alone coincide step by step, up to the smaller of
the limits.  A synthesis that is decided after taking some sketches is therefore decided
in the same way under every limit that allows as many, and under any smaller one it takes
exactly as many sketches as allowed and ends because the limit is spent.
-/

universe u

variable {V : Type u} [DecidableEq V]

namespace Search

/-- The same search under another limit. -/
def withLimit (limit : Nat) (search : Search V) : Search V :=
  { search with enumeration := search.enumeration.withLimit limit }

/-- A run that ends with a program or an error, and not for want of candidates. -/
def Decided (signals : Signals) (search : Search V) : Prop :=
  ∀ explored reason, search.run signals ≠ .ok (.exhausted explored reason)

section AfterRun

variable {signals : Signals} {search later : Search V}

/-- A run ends behind a step that does not judge its candidate incorrect. -/
theorem afterRun_of_settled {result : Except EvalError (Option (Verdict V))}
    (stepped : search.step signals = (result, later))
    (settled : ∀ judged got, result ≠ .ok (some (.incorrect judged got))) :
    search.afterRun signals = later := by
  rw [afterRun]
  split
  all_goals
    rename_i same
    rw [stepped] at same
    cases same
  · rfl
  · rfl
  · rfl
  · exact absurd rfl (settled _ _)

theorem afterRun_of_incorrect {judged : Tree V} {got : Option V}
    (stepped : search.step signals = (.ok (some (.incorrect judged got)), later)) :
    search.afterRun signals = later.afterRun signals := by
  rw [afterRun]
  split
  all_goals
    rename_i same
    rw [stepped] at same
    cases same
  rfl

theorem explored_le_step (signals : Signals) (search : Search V) :
    search.enumeration.explored ≤ (search.step signals).2.enumeration.explored := by
  rw [enumeration_step]
  exact Enumeration.explored_le_next? signals search.enumeration

theorem explored_le_afterRun (signals : Signals) (search : Search V) :
    search.enumeration.explored ≤ (search.afterRun signals).enumeration.explored := by
  fun_induction afterRun signals search with
  | case1 search _ later stepped | case2 search later stepped
  | case3 search _ later stepped =>
      have further := search.explored_le_step signals
      rwa [stepped] at further
  | case4 search _ _ later stepped ih =>
      have further := search.explored_le_step signals
      rw [stepped] at further
      exact Nat.le_trans further ih

/-- The number of sketches reported with a program is the number taken by the run. -/
theorem explored_of_run_eq_found {program : Tree V} {explored : Nat}
    (found : search.run signals = .ok (.found program explored)) :
    (search.afterRun signals).enumeration.explored = explored := by
  fun_induction run signals search with
  | case1 | case2 => cases found
  | case3 search judged later stepped =>
      cases found
      rw [afterRun_of_settled stepped (by simp)]
  | case4 search _ _ later stepped ih =>
      rw [afterRun_of_incorrect stepped]
      exact ih found

end AfterRun

section Limit

variable {signals : Signals} {search later : Search V} {limit : Nat}
  {result : Except EvalError (Option (Verdict V))}

theorem next?_of_step_ne_none (stepped : search.step signals = (result, later))
    (going : result ≠ .ok none) :
    ∃ candidate, search.enumeration.next? signals = (some candidate, later.enumeration) ∧
      result = (judge search.evaluate search.enumeration.problem.sample candidate).map some ∧
        later.evaluate = search.evaluate := by
  rcases asked : search.enumeration.next? signals with ⟨answer, rest⟩
  cases answer with
  | none =>
      rw [step_of_next?_eq_none asked] at stepped
      cases stepped
      exact absurd rfl going
  | some candidate =>
      rw [step_of_next?_eq_some asked] at stepped
      cases stepped
      exact ⟨candidate, rfl, rfl, rfl⟩

/-- A limit that covers the sketches taken lets a step go the same way. -/
theorem step_withLimit_of_le (stepped : search.step signals = (result, later))
    (going : result ≠ .ok none) (enough : later.enumeration.explored ≤ limit) :
    (search.withLimit limit).step signals = (result, later.withLimit limit) := by
  rcases next?_of_step_ne_none stepped going with ⟨candidate, shown, rfl, same⟩
  have limited : (search.withLimit limit).enumeration.next? signals =
      (some candidate, later.enumeration.withLimit limit) :=
    Enumeration.next?_withLimit_of_le shown enough
  rw [step_of_next?_eq_some limited, withLimit, withLimit, same]
  rfl

/-- A smaller limit makes a step meet the end, because that limit is spent. -/
theorem run_withLimit_of_step_lt (stepped : search.step signals = (result, later))
    (going : result ≠ .ok none) (begun : search.enumeration.explored ≤ limit)
    (short : limit < later.enumeration.explored) :
    (search.withLimit limit).run signals = .ok (.exhausted limit .budgetSpent) := by
  rcases next?_of_step_ne_none stepped going with ⟨candidate, shown, -⟩
  rcases Enumeration.next?_withLimit_of_lt shown begun short with
    ⟨final, ended, explored, exhausted⟩
  have limited : (search.withLimit limit).step signals =
      (.ok none, { search.withLimit limit with enumeration := final }) :=
    step_of_next?_eq_none ended
  rw [run_of_step_eq_none (congrArg Prod.fst limited), limited]
  simp only [explored, exhausted, Option.getD_some]

theorem not_decided_of_step_eq_none (stepped : search.step signals = (.ok none, later)) :
    ¬ search.Decided signals := fun decided =>
  decided _ _ (run_of_step_eq_none (congrArg Prod.fst stepped))

theorem Decided.behind {judged : Tree V} {got : Option V} (decided : search.Decided signals)
    (stepped : search.step signals = (.ok (some (.incorrect judged got)), later)) :
    later.Decided signals := by
  intro explored reason exhausted
  apply decided explored reason
  rw [run_of_step_eq_incorrect (congrArg Prod.fst stepped), stepped]
  exact exhausted

/-- A decided run is decided in the same way under every limit that covers the sketches it
has taken. -/
theorem Decided.run_withLimit_of_le (decided : search.Decided signals)
    (enough : (search.afterRun signals).enumeration.explored ≤ limit) :
    (search.withLimit limit).run signals = search.run signals := by
  fun_induction afterRun signals search with
  | case1 search failure later stepped =>
      have limited := step_withLimit_of_le stepped (by simp) enough
      rw [run_of_step_eq_error (congrArg Prod.fst limited),
        run_of_step_eq_error (congrArg Prod.fst stepped)]
  | case2 search later stepped => exact absurd decided (not_decided_of_step_eq_none stepped)
  | case3 search judged later stepped =>
      have limited := step_withLimit_of_le stepped (by simp) enough
      rw [run_of_step_eq_correct (congrArg Prod.fst limited),
        run_of_step_eq_correct (congrArg Prod.fst stepped), limited, stepped]
      rfl
  | case4 search judged got later stepped ih =>
      have reached := Nat.le_trans (explored_le_afterRun signals later) enough
      have limited := step_withLimit_of_le stepped (by simp) reached
      rw [run_of_step_eq_incorrect (congrArg Prod.fst limited),
        run_of_step_eq_incorrect (congrArg Prod.fst stepped), limited, stepped]
      exact ih (decided.behind stepped) enough

/-- Under a smaller limit a decided run takes as many sketches as allowed and ends because
the limit is spent. -/
theorem Decided.run_withLimit_of_lt (decided : search.Decided signals)
    (begun : search.enumeration.explored ≤ limit)
    (short : limit < (search.afterRun signals).enumeration.explored) :
    (search.withLimit limit).run signals = .ok (.exhausted limit .budgetSpent) := by
  fun_induction afterRun signals search with
  | case1 search _ later stepped | case3 search _ later stepped =>
      exact run_withLimit_of_step_lt stepped (by simp) begun short
  | case2 search later stepped => exact absurd decided (not_decided_of_step_eq_none stepped)
  | case4 search judged got later stepped ih =>
      rcases Nat.lt_or_ge limit later.enumeration.explored with beyond | within
      · exact run_withLimit_of_step_lt stepped (by simp) begun beyond
      · have limited := step_withLimit_of_le stepped (by simp) within
        rw [run_of_step_eq_incorrect (congrArg Prod.fst limited), limited]
        exact ih (decided.behind stepped) within short

end Limit

end Search

namespace Synthesizer

section Limit

variable {synthesizer : Synthesizer V} {signals : Signals} {sample : Sample V} {limit : Nat}
  (decided : ((synthesizer.withBudget (Budget.ofLimit limit)).search sample).Decided signals)

include decided

theorem synthesize_of_explored_le {enough : Nat}
    (le : (((synthesizer.withBudget (Budget.ofLimit limit)).search sample).afterRun
      signals).enumeration.explored ≤ enough) :
    (synthesizer.withBudget (Budget.ofLimit enough)).synthesize signals sample =
      (synthesizer.withBudget (Budget.ofLimit limit)).synthesize signals sample :=
  synthesize_congr (decided.run_withLimit_of_le le)

theorem synthesize_of_lt_explored {short : Nat}
    (lt : short < (((synthesizer.withBudget (Budget.ofLimit limit)).search sample).afterRun
      signals).enumeration.explored) :
    (synthesizer.withBudget (Budget.ofLimit short)).synthesize signals sample =
      .ok (.exhausted short .budgetSpent) :=
  synthesize_of_run (decided.run_withLimit_of_lt (Nat.zero_le short) lt)

end Limit

/-- The limit decides nothing but whether a synthesis gets as far as its answer.  If some
limit leads to a program or to an error behind a number of sketches, then every limit of at
least that number leads to the same, and every smaller one is spent without an answer.
The candidates under a limit are a beginning of those under any larger one. -/
theorem exact_limit (synthesizer : Synthesizer V) (signals : Signals) (sample : Sample V) :
    let under := fun limit => synthesizer.withBudget (Budget.ofLimit limit)
    (∀ limit program explored,
      (under limit).synthesize signals sample = .ok (.found program explored) →
        (∀ enough, explored ≤ enough →
          (under enough).synthesize signals sample = .ok (.found program explored)) ∧
        ∀ short, short < explored →
          (under short).synthesize signals sample = .ok (.exhausted short .budgetSpent)) ∧
    (∀ limit error,
      (under limit).synthesize signals sample = .error error →
        let explored := (((under limit).search sample).afterRun signals).enumeration.explored
        (∀ enough, explored ≤ enough →
          (under enough).synthesize signals sample = .error error) ∧
        ∀ short, short < explored →
          (under short).synthesize signals sample = .ok (.exhausted short .budgetSpent)) ∧
    ∀ fewer more, fewer ≤ more →
      (((under fewer).enumerate sample).drain signals).1 <+:
        (((under more).enumerate sample).drain signals).1 := by
  intro under
  refine ⟨?_, ?_, ?_⟩
  · intro limit program explored found
    have ran := run_of_synthesize found
    have decided : ((under limit).search sample).Decided signals := by
      intro other reason exhausted
      rw [ran] at exhausted
      cases exhausted
    rw [← found, ← Search.explored_of_run_eq_found ran]
    exact ⟨fun _ le => synthesize_of_explored_le decided le,
      fun _ lt => synthesize_of_lt_explored decided lt⟩
  · intro limit error failed
    rcases synthesize_eq_error_iff.mp failed with ⟨failure, _, ran⟩
    have decided : ((under limit).search sample).Decided signals := by
      intro other reason exhausted
      rw [ran] at exhausted
      cases exhausted
    rw [← failed]
    exact ⟨fun _ le => synthesize_of_explored_le decided le,
      fun _ lt => synthesize_of_lt_explored decided lt⟩
  · intro fewer more le
    have drained : ∀ limit, (((under limit).enumerate sample).drain signals).1 =
        (synthesizer.language.grammar.firstSketches limit).flatMap
          (synthesizer.problem sample).completions :=
      fun limit => Enumeration.drain_eq_flatMap signals ((under limit).problem sample) rfl
    rw [drained, drained]
    exact (Grammar.firstSketches_prefix_of_le _ le).flatMap _

/-- A synthesis over the looping grammar with the sample's inputs as literals.  The value of
a program is the literal of its only leaf, and a leaf without one fails. -/
def reading : Synthesizer Nat where
  language :=
    { grammar := Grammar.looping
      evaluate := fun program _ =>
        match program.leaves.head?.bind Tree.literal with
        | none => .error (.missingLiteral "c")
        | some value => .ok (some value)
      filler := fun _ sample => sample.inputs }
  budget := Budget.ofLimit 6
  valid := by decide

theorem synthesize_reading_two :
    reading.synthesize Signals.none ⟨2, [1, 2]⟩ =
      .ok (.found (Grammar.smallestProgram 2) 4) := by
  have first : ((reading.search ⟨2, [1, 2]⟩).step Signals.none).1 =
      .ok (some (.incorrect (Grammar.smallestProgram 1) (some 1))) := by decide +kernel
  have second : (((reading.search ⟨2, [1, 2]⟩).step Signals.none).2.step Signals.none).1 =
      .ok (some (.correct (Grammar.smallestProgram 2))) := by decide +kernel
  rw [synthesize, Search.run_of_step_eq_incorrect first,
    Search.run_of_step_eq_correct second]
  decide +kernel

/-- Without an input there is no literal to read. -/
theorem synthesize_reading_nothing :
    reading.synthesize Signals.none ⟨2, []⟩ = .error (.evaluation (.missingLiteral "c")) ∧
      ((reading.search ⟨2, []⟩).afterRun Signals.none).enumeration.explored = 4 := by
  have failed : ((reading.search ⟨2, []⟩).step Signals.none).1 =
      .error (.missingLiteral "c") := by decide +kernel
  constructor
  · exact synthesize_eq_error_iff.mpr ⟨_, rfl, Search.run_of_step_eq_error failed⟩
  · rw [Search.afterRun_of_settled (Prod.ext failed rfl) (by simp)]
    decide +kernel

/-- Four sketches are what the program needs, and what the missing literal needs: six lead
to the same, and three are spent without an answer. -/
theorem exact_limit_reading :
    (reading.synthesize Signals.none ⟨2, [1, 2]⟩ =
          .ok (.found (Grammar.smallestProgram 2) 4) ∧
        (reading.withBudget (Budget.ofLimit 4)).synthesize Signals.none ⟨2, [1, 2]⟩ =
          .ok (.found (Grammar.smallestProgram 2) 4) ∧
        (reading.withBudget (Budget.ofLimit 3)).synthesize Signals.none ⟨2, [1, 2]⟩ =
          .ok (.exhausted 3 .budgetSpent)) ∧
      (reading.synthesize Signals.none ⟨2, []⟩ =
          .error (.evaluation (.missingLiteral "c")) ∧
        (reading.withBudget (Budget.ofLimit 4)).synthesize Signals.none ⟨2, []⟩ =
          .error (.evaluation (.missingLiteral "c")) ∧
        (reading.withBudget (Budget.ofLimit 3)).synthesize Signals.none ⟨2, []⟩ =
          .ok (.exhausted 3 .budgetSpent)) ∧
      (((reading.withBudget (Budget.ofLimit 3)).enumerate ⟨2, [1, 2]⟩).drain Signals.none).1 <+:
        ((reading.enumerate ⟨2, [1, 2]⟩).drain Signals.none).1 := by
  have two := exact_limit reading Signals.none ⟨2, [1, 2]⟩
  have nothing := exact_limit reading Signals.none ⟨2, []⟩
  have found := two.1 6 _ 4 synthesize_reading_two
  have failed := nothing.2.1 6 _ synthesize_reading_nothing.1
  have four : (((reading.withBudget (Budget.ofLimit 6)).search ⟨2, []⟩).afterRun
      Signals.none).enumeration.explored = 4 := synthesize_reading_nothing.2
  rw [four] at failed
  exact ⟨⟨synthesize_reading_two, found.1 4 (by decide), found.2 3 (by decide)⟩,
    ⟨synthesize_reading_nothing.1, failed.1 4 (by decide), failed.2 3 (by decide)⟩,
    two.2.2 3 6 (by decide)⟩

end Synthesizer

end ProgramSearch
