import ProgramSearch.Enumeration.Lookup
import ProgramSearch.Grammar.Lineage
import ProgramSearch.Proofs.Enumeration.Pass
import ProgramSearch.Proofs.Grammar.Lookup

namespace ProgramSearch
namespace Enumeration

/-!
# Calls that do not break off

The sketches waiting have no leaf that is not within reach of the start symbol.  Taking one of
them keeps this, so that no call ever breaks off as long as the grammar can look up everything
within reach, whatever calls have been made before and under whatever signals.
-/

universe u

variable {V : Type u}

/-- The grammar can look up everything within reach, and the sketches waiting have no leaf that
is out of reach. -/
structure Answerable (state : Enumeration V) : Prop where
  within : state.problem.grammar.WithinTable
  reachable : ∀ sketch ∈ state.worklist.toList, ∀ leaf ∈ sketch.leaves,
    state.problem.grammar.Reachable leaf.symbol

namespace Answerable

variable {state : Enumeration V}

theorem start {problem : Problem V} (within : problem.grammar.WithinTable) :
    (Enumeration.start problem).Answerable where
  within := within
  reachable := by
    intro sketch waiting leaf member
    have listed : sketch ∈ problem.grammar.level 0 := waiting
    exact Grammar.reachable_of_mem_level listed leaf member

theorem take (answerable : state.Answerable) {sketch : Tree V} {waiting : Queue (Tree V)}
    (first : state.worklist.toList = sketch :: waiting.toList) :
    (state.take sketch waiting).Answerable where
  within := by
    rw [problem_take]
    exact answerable.within
  reachable := by
    intro other among
    rw [toList_worklist_take] at among
    rw [problem_take]
    rcases List.mem_append.mp among with behind | rewriting
    · exact answerable.reachable other (by rw [first]; exact List.mem_cons_of_mem _ behind)
    · have ahead := answerable.reachable sketch (by rw [first]; exact List.mem_cons_self)
      exact Grammar.reachable_of_mem_rewrites ahead rewriting

theorem pass (answerable : state.Answerable) (signals : Signals) :
    (state.pass signals).2.Answerable := by
  rcases result : state.pass signals with ⟨answer, later⟩
  cases passed_of_eq result with
  | hand | rest | dry | stop => exact ⟨answerable.within, answerable.reachable⟩
  | take _ _ first _ => exact answerable.take first

theorem afterPasses (answerable : state.Answerable) (schedule : List Signals) :
    (state.afterPasses schedule).Answerable := by
  induction schedule generalizing state with
  | nil => exact answerable
  | cons signals schedule ih =>
      rw [afterPasses_cons]
      exact ih (answerable.pass signals)

theorem next? (answerable : state.Answerable) (signals : Signals) :
    (state.next? signals).2.Answerable := by
  rcases exists_schedule_of_call signals state with ⟨schedule, reached, _⟩
  rw [← reached]
  exact answerable.afterPasses schedule

/-- The next sketch can be taken. -/
theorem nonterminalLeafPaths? (answerable : state.Answerable) {sketch : Tree V}
    {waiting : Queue (Tree V)} (popped : state.worklist.pop? = some (sketch, waiting)) :
    sketch.nonterminalLeafPaths? state.problem.grammar =
      some (sketch.nonterminalLeafPaths state.problem.grammar) := by
  have first := Queue.toList_of_pop? popped
  have ahead := answerable.reachable sketch (by rw [first]; exact List.mem_cons_self)
  exact Tree.askLeaves?_of_admits
    (fun leaf member => answerable.within _ (ahead leaf member)) _

theorem isSome_call? (answerable : state.Answerable) (signals : Signals) :
    (state.call? signals).isSome := by
  fun_induction Enumeration.call? signals state with
  | case1 | case2 | case3 | case4 => rfl
  | case5 state _ _ sketch waiting popped _ broken =>
      rw [answerable.nonterminalLeafPaths? popped] at broken
      cases broken
  | case6 state _ _ sketch waiting popped _ _ _ ih =>
      exact ih (answerable.take (Queue.toList_of_pop? popped))

/-- A call does not break off. -/
theorem call?_eq (answerable : state.Answerable) (signals : Signals) :
    state.call? signals = some (state.next? signals) := by
  rcases Option.isSome_iff_exists.mp (answerable.isSome_call? signals) with ⟨⟨_, _⟩, answered⟩
  rw [answered, call?_eq_some answered]

/-- Nor does any of the calls up to the end. -/
theorem drain?_eq (answerable : state.Answerable) (signals : Signals) :
    state.drain? signals = some (state.drain signals) := by
  fun_induction Enumeration.drain signals state with
  | case1 state final ended =>
      exact drain?_of_call?_eq_nothing ((answerable.call?_eq signals).trans (congrArg some ended))
  | case2 state program later shown programs final rest ih =>
      have answered := (answerable.call?_eq signals).trans (congrArg some shown)
      have behind : later.Answerable := by
        have next := answerable.next? signals
        rwa [shown] at next
      rw [drain?_of_call?_eq_program answered, ih behind, rest]
      rfl

end Answerable

/-! ## A call that breaks off -/

section Overtaken

variable {filler : Filler Int64} {sample : Sample Int64} {budget : Budget} {signals : Signals}

/-- Over a copy that has been overtaken the first call breaks off at the second sketch, which is
the one with the symbol of the original. -/
theorem call?_overtaken (enough : 2 ≤ budget.limit) (quiet : budget.isCancelled signals = false) :
    (start (Problem.mk Grammar.overtaken filler sample budget)).call? signals = none := by
  have allowed : ∀ explored, explored < 2 → budget.stopReason signals explored = none :=
    fun explored early => (Budget.stopReason_eq_none_iff _ _ _).mpr
      ⟨quiet, Nat.lt_of_lt_of_le early enough⟩
  have broken : (Tree.node ⟨0, 0⟩ none [Tree.leaf ⟨0, 2⟩] : Tree Int64).nonterminalLeafPaths?
      Grammar.overtaken = none :=
    Tree.askLeaves?_eq_none (List.mem_singleton.mpr rfl) (by decide) (by decide) _
  rw [call?_of_allowed rfl rfl rfl (allowed 0 (by decide))]
  rw [Option.bind_eq_none_iff]
  rintro _ _
  rw [call?_of_allowed rfl rfl rfl (allowed 1 (by decide))]
  exact congrArg (Option.bind · _) broken

end Overtaken

end Enumeration
end ProgramSearch
