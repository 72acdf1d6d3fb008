import ProgramSearch.Enumeration
import ProgramSearch.Tree.Lookup

namespace ProgramSearch
namespace Enumeration

/-!
# Calls that may break off

A call asks the grammar about the leaves of every sketch it takes.  If one of them is past the
table, the call breaks off there: it hands out nothing and leaves no state behind.
-/

universe u

variable {V : Type u}

/-- The next program as `next?` finds it, unless the grammar does not admit a leaf of some sketch
on the way there. -/
def call? (signals : Signals) (state : Enumeration V) :
    Option (Option (Tree V) × Enumeration V) :=
  match state.filling.bind Filling.next? with
  | some (program, rest) => some (some program, { state with filling := some rest })
  | none =>
      if state.exhausted.isSome then
        some (none, { state with filling := none })
      else
        match state.worklist.pop? with
        | none => some (none, state.stop .frontierEmpty)
        | some (sketch, waiting) =>
            match _ : state.problem.budget.stopReason signals state.explored with
            | some reason => some (none, state.stop reason)
            | none =>
                match sketch.nonterminalLeafPaths? state.problem.grammar with
                | none => none
                | some _ => call? signals (state.take sketch waiting)
termination_by state.allowance
decreasing_by
  exact allowance_take_lt state sketch waiting
    ((Budget.stopReason_eq_none_iff _ _ _).mp ‹_›).2

/-- A call that does not break off is a call. -/
theorem call?_eq_some {signals : Signals} {state later : Enumeration V}
    {answer : Option (Tree V)} (answered : state.call? signals = some (answer, later)) :
    state.next? signals = (answer, later) := by
  fun_induction call? signals state with
  | case1 state program rest filled =>
      cases answered
      rw [next?, filled]
  | case2 state filled ended =>
      cases answered
      rw [next?, filled]
      exact if_pos ended
  | case3 state filled running empty =>
      cases answered
      rw [next?, filled]
      simp only [if_neg running, empty]
  | case4 state filled running sketch waiting popped reason refused =>
      cases answered
      rw [next?, filled]
      simp only [if_neg running, popped]
      split <;> simp_all
  | case5 => cases answered
  | case6 state filled running sketch waiting popped allowed _ _ ih =>
      rw [next?, filled]
      simp only [if_neg running, popped]
      split
      · simp_all
      · exact ih answered

/-- A sketch is taken if the grammar can tell about its leaves. -/
theorem call?_of_allowed {signals : Signals} {state : Enumeration V} {sketch : Tree V}
    {waiting : Queue (Tree V)} (idle : state.filling = none) (running : state.exhausted = none)
    (first : state.worklist.pop? = some (sketch, waiting))
    (allowed : state.problem.budget.stopReason signals state.explored = none) :
    state.call? signals =
      (sketch.nonterminalLeafPaths? state.problem.grammar).bind fun _ =>
        (state.take sketch waiting).call? signals := by
  rw [call?, idle, running, first]
  simp only [Option.bind_none, Option.isSome_none, Bool.false_eq_true, if_false]
  split
  · simp_all
  · cases sketch.nonterminalLeafPaths? state.problem.grammar <;> rfl

/-- All programs up to the end under unchanging signals, with the final state, unless a call
breaks off before. -/
def drain? (signals : Signals) (state : Enumeration V) :
    Option (List (Tree V) × Enumeration V) :=
  match _ : state.call? signals with
  | none => none
  | some (none, final) => some ([], final)
  | some (some program, later) =>
      (drain? signals later).map fun (programs, final) => (program :: programs, final)
termination_by (state.allowance, state.pending)
decreasing_by exact next?_decreases (call?_eq_some ‹_›)

theorem drain?_of_call?_eq_none {signals : Signals} {state : Enumeration V}
    (broken : state.call? signals = none) : state.drain? signals = none := by
  rw [drain?]
  split <;> simp_all

theorem drain?_of_call?_eq_nothing {signals : Signals} {state final : Enumeration V}
    (ended : state.call? signals = some (none, final)) :
    state.drain? signals = some ([], final) := by
  rw [drain?]
  split <;> simp_all

theorem drain?_of_call?_eq_program {signals : Signals} {state later : Enumeration V}
    {program : Tree V} (shown : state.call? signals = some (some program, later)) :
    state.drain? signals =
      (later.drain? signals).map fun (programs, final) => (program :: programs, final) := by
  rw [drain?]
  split <;> simp_all

end Enumeration
end ProgramSearch
