import ProgramSearch.Proofs.Enumeration.Ending

namespace ProgramSearch
namespace Enumeration

/-!
# The same enumeration under another limit

A limit is compared with the number of sketches taken and otherwise plays no part.  A call
that answers a program goes the same way under every limit that covers the sketches taken
by then.  Under a smaller one it takes as many sketches as that limit allows and ends
because the limit is spent.
-/

universe u

variable {V : Type u}

/-- The same state under another limit. -/
def withLimit (limit : Nat) (state : Enumeration V) : Enumeration V :=
  { state with
    problem := { state.problem with budget := { state.problem.budget with limit := limit } } }

theorem take_withLimit (limit : Nat) (state : Enumeration V) (sketch : Tree V)
    (waiting : Queue (Tree V)) :
    (state.withLimit limit).take sketch waiting =
      (state.take sketch waiting).withLimit limit := by
  by_cases complete : state.problem.grammar.isComplete sketch = true
  · simp [take, withLimit, complete]
  · simp [take, withLimit, complete]

/-- Sketches taken by a call are counted. -/
theorem Call.explored_eq {signals : Signals} {state later : Enumeration V}
    {taken : List (Tree V)} {answer : Option (Tree V)}
    (call : Call signals state taken answer later) :
    later.explored = state.explored + taken.length := by
  induction call with
  | hand | rest | dry | stop => rfl
  | take _ _ _ _ _ ih =>
      rw [ih, explored_take, List.length_cons]
      omega

theorem explored_le_next? (signals : Signals) (state : Enumeration V) :
    state.explored ≤ (state.next? signals).2.explored :=
  Nat.le.intro (call_next? signals state).explored_eq.symm

/-- A limit that is not spent allows what another limit allows. -/
theorem stopReason_withLimit_of_lt {signals : Signals} {state : Enumeration V} {limit : Nat}
    (allowed : state.problem.budget.stopReason signals state.explored = none)
    (room : state.explored < limit) :
    (state.withLimit limit).problem.budget.stopReason signals
      (state.withLimit limit).explored = none :=
  (Budget.stopReason_eq_none_iff _ _ _).mpr
    ⟨((Budget.stopReason_eq_none_iff _ _ _).mp allowed).1, room⟩

/-- A spent limit refuses what another limit allows. -/
theorem stopReason_withLimit_of_eq {signals : Signals} {state : Enumeration V} {limit : Nat}
    (allowed : state.problem.budget.stopReason signals state.explored = none)
    (spent : state.explored = limit) :
    (state.withLimit limit).problem.budget.stopReason signals
      (state.withLimit limit).explored = some .budgetSpent := by
  have quiet : (state.withLimit limit).problem.budget.isCancelled signals = false :=
    ((Budget.stopReason_eq_none_iff _ _ _).mp allowed).1
  have full : (state.withLimit limit).problem.budget.limit ≤ (state.withLimit limit).explored :=
    Nat.le_of_eq spent.symm
  rw [Budget.stopReason, quiet, if_neg Bool.false_ne_true, if_pos full]

/-- Under a limit that covers the sketches taken, a call answers the same program. -/
theorem next?_withLimit_of_le {signals : Signals} {state later : Enumeration V}
    {program : Tree V} {limit : Nat}
    (shown : state.next? signals = (some program, later))
    (enough : later.explored ≤ limit) :
    (state.withLimit limit).next? signals = (some program, later.withLimit limit) := by
  fun_induction next? signals state with
  | case1 state program rest filled =>
      cases shown
      exact (state.withLimit limit).next?_of_filled filled
  | case2 | case3 | case4 => cases shown
  | case5 state idle running sketch waiting popped allowed ih =>
      have further := explored_le_next? signals (state.take sketch waiting)
      rw [shown, explored_take] at further
      have room : state.explored < limit := Nat.lt_of_lt_of_le further enough
      rw [(state.withLimit limit).next?_of_allowed idle
        (Option.not_isSome_iff_eq_none.mp running) popped
        (stopReason_withLimit_of_lt allowed room), take_withLimit]
      exact ih shown

/-- Under a limit below the number of sketches taken, a call that would answer a program
ends because the limit is spent. -/
theorem next?_withLimit_of_lt {signals : Signals} {state later : Enumeration V}
    {program : Tree V} {limit : Nat}
    (shown : state.next? signals = (some program, later))
    (begun : state.explored ≤ limit) (short : limit < later.explored) :
    ∃ final, (state.withLimit limit).next? signals = (none, final) ∧
      final.explored = limit ∧ final.exhausted = some .budgetSpent := by
  fun_induction next? signals state with
  | case1 state program rest filled =>
      cases shown
      exact absurd short (Nat.not_lt_of_le begun)
  | case2 | case3 | case4 => cases shown
  | case5 state idle running sketch waiting popped allowed ih =>
      have unended := Option.not_isSome_iff_eq_none.mp running
      rcases Nat.eq_or_lt_of_le begun with spent | room
      · rw [(state.withLimit limit).next?_of_refused idle unended popped
          (stopReason_withLimit_of_eq allowed spent)]
        exact ⟨_, rfl, spent, rfl⟩
      · rw [(state.withLimit limit).next?_of_allowed idle unended popped
          (stopReason_withLimit_of_lt allowed room), take_withLimit]
        apply ih shown
        rw [explored_take]
        exact room

end Enumeration
end ProgramSearch
