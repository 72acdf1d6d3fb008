import ProgramSearch.Proofs.Enumeration.Lookup
import ProgramSearch.Proofs.Search.Smallest
import ProgramSearch.Proofs.Search.Steps

namespace ProgramSearch

/-!
# Every search ends within its budget

The worklist may grow for ever, and a sketch with an empty alternative comes back again and
again.  Only the budget ends such a run: every pass of a call that gives no answer takes one of
the sketches still allowed.  No pass breaks off as long as the grammar can look up all that is
within reach.  Whatever has been answered so far is a beginning of the
completions of the first sketches of the levels, and so the programs of a run are finitely
many, under any signals and under any evaluator.
-/

universe u

variable {V : Type u}

namespace Search

variable [DecidableEq V] {search : Search V}

/-- A run is settled by the first step whose call answers nothing, if not before. -/
theorem exists_runWithin? {calls : List Signals}
    (nothing : none ∈ search.enumeration.answers calls) :
    ∃ result, search.runWithin? calls = some result := by
  induction calls generalizing search with
  | nil => cases nothing
  | cons signals calls ih =>
      rw [runWithin?]
      split
      · exact ⟨_, rfl⟩
      · exact ⟨_, rfl⟩
      · exact ⟨_, rfl⟩
      · rename_i later judged got stepped
        rcases judge_of_step stepped with ⟨_, candidate, shown, _⟩
        rw [Enumeration.answers, shown] at nothing
        rcases List.mem_cons.mp nothing with impossible | further
        · cases impossible
        · exact ih further

/-- Under unchanging signals those steps are the run. -/
theorem runWithin?_replicate (signals : Signals) {count : Nat}
    (nothing : none ∈ search.enumeration.answers (List.replicate count signals)) :
    search.runWithin? (List.replicate count signals) = some (search.run signals) := by
  induction count generalizing search with
  | zero => cases nothing
  | succ count ih =>
      rw [List.replicate_succ] at nothing ⊢
      rw [runWithin?]
      split
      · rename_i error later stepped
        rw [run_of_step_eq_error (congrArg Prod.fst stepped)]
      · rename_i final stepped
        rw [run_of_step_eq_none (congrArg Prod.fst stepped), stepped]
      · rename_i program later stepped
        rw [run_of_step_eq_correct (congrArg Prod.fst stepped), stepped]
      · rename_i later judged got stepped
        rcases judge_of_step stepped with ⟨_, candidate, shown, _⟩
        rw [Enumeration.answers, shown] at nothing
        rw [run_of_step_eq_incorrect (congrArg Prod.fst stepped), stepped]
        rcases List.mem_cons.mp nothing with impossible | further
        · cases impossible
        · exact ih further

/-- The outcome of a run counts the sketches that its calls have taken. -/
theorem exists_explored_of_runWithin? {calls : List Signals} {outcome : Outcome V}
    (settled : search.runWithin? calls = some (.ok outcome)) :
    ∃ made, outcome.explored = (search.enumeration.after made).explored := by
  induction calls generalizing search with
  | nil => cases settled
  | cons signals calls ih =>
      have moved := enumeration_step signals search
      rw [runWithin?] at settled
      split at settled
      · cases settled
      · rename_i final stepped
        cases settled
        rw [stepped] at moved
        exact ⟨[signals], congrArg Enumeration.explored moved⟩
      · rename_i program later stepped
        cases settled
        rw [stepped] at moved
        exact ⟨[signals], congrArg Enumeration.explored moved⟩
      · rename_i later judged got stepped
        rw [stepped] at moved
        rcases ih settled with ⟨made, same⟩
        refine ⟨signals :: made, ?_⟩
        rw [same, Enumeration.after_cons, ← moved]

end Search

namespace Enumeration

/-- What the budget says about a state and the passes from it.  The sketches taken are within
the limit, the next one can be taken, a pass counts one more exactly if it gives no answer, the
count fits in a 64-bit word if the limit does, and one pass more than there are sketches allowed
finishes a call. -/
structure WithinBudget (problem : Problem V) (state : Enumeration V) : Prop where
  within : state.explored ≤ problem.budget.limit
  told : ∀ sketch waiting, state.worklist.pop? = some (sketch, waiting) →
    sketch.nonterminalLeafPaths? state.problem.grammar =
      some (sketch.nonterminalLeafPaths state.problem.grammar)
  keeps : ∀ signals answer later, state.pass signals = (some answer, later) →
    later.explored = state.explored
  counts : ∀ signals later, state.pass signals = (none, later) →
    later.explored = state.explored + 1 ∧ later.explored ≤ problem.budget.limit
  fits : problem.budget.limit < 2 ^ 64 → ∀ signals later, state.pass signals = (none, later) →
    (UInt64.ofNat state.explored + 1).toNat = later.explored
  answers : ∀ schedule, problem.budget.limit - state.explored < schedule.length →
    ∃ answered, state.callWithin? schedule = some answered
  call : ∀ signals, state.call? signals =
    state.callWithin? (List.replicate (problem.budget.limit - state.explored + 1) signals)

theorem withinBudget_passes {problem : Problem V} (within : problem.grammar.WithinTable)
    (schedule : List Signals) :
    WithinBudget problem ((start problem).afterPasses schedule) := by
  rcases reached_passes problem schedule with ⟨taken, reached⟩
  have answerable := (Answerable.start within).afterPasses schedule
  generalize (start problem).afterPasses schedule = state at reached answerable ⊢
  have allowed : state.allowance = problem.budget.limit - state.explored := by
    rw [allowance, Budget.remaining, reached.same]
  have counts : ∀ signals later, state.pass signals = (none, later) →
      later.explored = state.explored + 1 ∧ later.explored ≤ problem.budget.limit := by
    intro signals later further
    rcases room_of_pass further with ⟨room, counted, _⟩
    rw [reached.same] at room
    exact ⟨counted, counted ▸ room⟩
  constructor
  case within => exact reached.within
  case told => exact fun sketch waiting popped => answerable.nonterminalLeafPaths? popped
  case keeps =>
    intro signals answer later answered
    cases passed_of_eq answered <;> rfl
  case counts => exact counts
  case fits =>
    intro small signals later further
    rcases counts signals later further with ⟨counted, within⟩
    have before : state.explored < UInt64.size := by
      change state.explored < 2 ^ 64
      omega
    rw [counted, UInt64.toNat_add, UInt64.toNat_ofNat_of_lt' before]
    exact Nat.mod_eq_of_lt (by change state.explored + 1 < 2 ^ 64; omega)
  case answers =>
    intro schedule enough
    exact exists_callWithin? (allowed ▸ enough)
  case call =>
    intro signals
    rw [answerable.call?_eq, callWithin?_replicate signals (by omega)]

/-- The programs that a run within the limit may hand out. -/
def programsWithin (problem : Problem V) : List (Tree V) :=
  (problem.grammar.firstSketches problem.budget.limit).flatMap problem.completions

theorem length_shown_le (problem : Problem V) (schedule : List Signals) :
    ((start problem).answersOfPasses schedule).reduceOption.length ≤
      (programsWithin problem).length := by
  rcases reached_passes problem schedule with ⟨taken, reached⟩
  exact reached.shown_prefix_completions.length_le

theorem explored_after_le (problem : Problem V) (calls : List Signals) :
    ((start problem).after calls).explored ≤ problem.budget.limit :=
  (reached_run problem calls).within

/-- Termination under every budget, for all grammars that can look up what is within reach.
Between any two passes, of one call or of two and whatever the signals have been, a call ends
after at most as many further sketches as the limit leaves, and counting them never goes past the
limit.  A run has finitely many programs, and there is a number of calls by which one has answered
nothing, whatever the signals are.  By then a search, which makes the same calls, is settled under
any evaluator, with at most as many sketches as the limit in its outcome. -/
theorem ends_within_budget [DecidableEq V] :
    (∀ problem : Problem V, problem.grammar.WithinTable → ∀ schedule : List Signals,
      WithinBudget problem ((start problem).afterPasses schedule)) ∧
    (∀ problem : Problem V, problem.grammar.WithinTable → ∃ bound,
      (∀ schedule,
        ((start problem).answersOfPasses schedule).reduceOption.length ≤ bound) ∧
      ∀ calls, bound < calls.length → none ∈ (start problem).answers calls) ∧
    ∀ (synthesizer : Synthesizer V) (sample : Sample V),
      synthesizer.language.grammar.WithinTable → ∃ bound, ∀ evaluate : Evaluator V,
      let given := synthesizer.withEvaluator evaluate
      (∀ calls, bound < calls.length → ∃ result,
        (given.search sample).runWithin? calls = some result ∧
          ∀ outcome, result = .ok outcome → outcome.explored ≤ synthesizer.budget.limit) ∧
      ∀ signals,
        (given.search sample).runWithin? (List.replicate (bound + 1) signals) =
            some ((given.search sample).run signals) ∧
          ∀ outcome, given.synthesize signals sample = .ok outcome →
            outcome.explored ≤ synthesizer.budget.limit := by
  refine ⟨fun problem => withinBudget_passes, ?_, ?_⟩
  · intro problem _
    exact ⟨(programsWithin problem).length, length_shown_le problem, none_mem_answers problem⟩
  · intro synthesizer sample _
    let problem := synthesizer.problem sample
    refine ⟨(programsWithin problem).length, fun evaluate => ?_⟩
    intro given
    have begun : (given.search sample).enumeration = start problem := rfl
    have limited : ∀ {calls : List Signals} {outcome : Outcome V},
        (given.search sample).runWithin? calls = some (.ok outcome) →
          outcome.explored ≤ synthesizer.budget.limit := by
      intro calls outcome settled
      rcases Search.exists_explored_of_runWithin? settled with ⟨made, same⟩
      rw [same, begun]
      exact explored_after_le problem made
    have silent : ∀ calls, (programsWithin problem).length < calls.length →
        none ∈ (given.search sample).enumeration.answers calls :=
      none_mem_answers problem
    refine ⟨?_, ?_⟩
    · intro calls enough
      rcases Search.exists_runWithin? (silent calls enough) with ⟨result, settled⟩
      exact ⟨result, settled, fun outcome ok => limited (ok ▸ settled)⟩
    · intro signals
      have run := Search.runWithin?_replicate signals
        (silent (List.replicate ((programsWithin problem).length + 1) signals) (by simp))
      refine ⟨run, ?_⟩
      intro outcome found
      rw [Synthesizer.run_of_synthesize found] at run
      exact limited run

/-- The looping grammar, whose sketches come back for ever, can look up all its symbols. -/
theorem ends_within_budget_looping :
    Grammar.looping.WithinTable ∧
      WithinBudget (Synthesizer.looping.problem ⟨2, []⟩)
        (start (Synthesizer.looping.problem ⟨2, []⟩)) ∧
      (∃ bound, ∀ calls, bound < calls.length →
        none ∈ (start (Synthesizer.looping.problem ⟨2, []⟩)).answers calls) ∧
      ∃ bound, ∀ calls, bound < calls.length → ∃ result,
        (Synthesizer.looping.search ⟨2, []⟩).runWithin? calls = some result := by
  have within : Grammar.looping.WithinTable := Grammar.withinTable_build (by decide)
  rcases ends_within_budget (V := Nat) with ⟨budgeted, answered, settled⟩
  refine ⟨within, budgeted _ within [], ?_, ?_⟩
  · rcases answered (Synthesizer.looping.problem ⟨2, []⟩) within with ⟨bound, _, nothing⟩
    exact ⟨bound, nothing⟩
  · rcases settled Synthesizer.looping ⟨2, []⟩ within with ⟨bound, each⟩
    refine ⟨bound, fun calls enough => ?_⟩
    rcases (each Synthesizer.looping.language.evaluate).1 calls enough with ⟨result, found, _⟩
    exact ⟨result, found⟩

/-- Over a copy that has been overtaken a call may not answer at all. -/
theorem call_overtaken_breaks_off :
    (start (Problem.mk Grammar.overtaken (fun _ _ => []) ⟨(0 : Int64), []⟩
      (Budget.ofLimit 2))).call? Signals.none = none :=
  call?_overtaken (by decide) rfl

end Enumeration
end ProgramSearch
