import ProgramSearch.Proofs.Enumeration.Reached

namespace ProgramSearch
namespace Enumeration

/-!
# How an enumeration ends

A call without a program leaves a reason for the end, and the reason stays.  If the
watched token has never been raised, the end has come because nothing waits any more or
because the limit is spent, and either way the sketches taken are the first sketches of
the levels, as many as the limit allows.
-/

universe u

variable {V : Type u}

theorem Call.isSome_exhausted_of_none {signals : Signals} {state later : Enumeration V}
    {taken : List (Tree V)} {answer : Option (Tree V)}
    (call : Call signals state taken answer later) (nothing : answer = none) :
    later.exhausted.isSome = true := by
  induction call with
  | hand => cases nothing
  | rest _ finished => exact finished
  | dry => rfl
  | stop => rfl
  | take _ _ _ _ _ ih => exact ih nothing

/-- An end that has come is not taken back. -/
theorem Call.exhausted_eq_of_isSome {signals : Signals} {state later : Enumeration V}
    {taken : List (Tree V)} {answer : Option (Tree V)}
    (call : Call signals state taken answer later) (finished : state.exhausted.isSome = true) :
    later.exhausted = state.exhausted := by
  cases call with
  | hand => rfl
  | rest => rfl
  | dry _ running | stop _ running | take _ running =>
      rw [running] at finished
      cases finished

theorem Call.problem_eq {signals : Signals} {state later : Enumeration V}
    {taken : List (Tree V)} {answer : Option (Tree V)}
    (call : Call signals state taken answer later) : later.problem = state.problem := by
  induction call with
  | hand | rest | dry | stop => rfl
  | take _ _ _ _ _ ih => rw [ih, problem_take]

/-- An enumeration is cancelled only while its token is raised. -/
theorem Call.exhausted_ne_cancelled {signals : Signals} {state later : Enumeration V}
    {taken : List (Tree V)} {answer : Option (Tree V)}
    (call : Call signals state taken answer later)
    (quiet : state.problem.budget.isCancelled signals = false)
    (before : state.exhausted ≠ some .cancelled) :
    later.exhausted ≠ some .cancelled := by
  induction call with
  | hand | rest => exact before
  | dry =>
      intro impossible
      cases impossible
  | stop _ _ _ refused =>
      intro cancelled
      cases cancelled
      rw [Budget.stopReason, quiet] at refused
      split at refused
      · contradiction
      · split at refused <;> cases refused
  | take _ _ _ _ _ ih =>
      apply ih
      · rwa [problem_take]
      · rwa [exhausted_take]

theorem problem_after (state : Enumeration V) (calls : List Signals) :
    (state.after calls).problem = state.problem := by
  induction calls generalizing state with
  | nil => rfl
  | cons signals calls ih =>
      rw [after_cons, ih, (call_next? signals state).problem_eq]

theorem exhausted_after_of_isSome {state : Enumeration V}
    (finished : state.exhausted.isSome = true) (calls : List Signals) :
    (state.after calls).exhausted = state.exhausted := by
  induction calls generalizing state with
  | nil => rfl
  | cons signals calls ih =>
      have kept := (call_next? signals state).exhausted_eq_of_isSome finished
      rw [after_cons, ih (kept ▸ finished), kept]

/-- Once a call of a run has answered nothing, the run has ended. -/
theorem isSome_exhausted_after (state : Enumeration V) (calls : List Signals)
    (nothing : none ∈ state.answers calls) :
    (state.after calls).exhausted.isSome = true := by
  induction calls generalizing state with
  | nil => cases nothing
  | cons signals calls ih =>
      rw [after_cons]
      rcases List.mem_cons.mp nothing with here | later
      · have finished := (call_next? signals state).isSome_exhausted_of_none here.symm
        rw [exhausted_after_of_isSome finished]
        exact finished
      · exact ih _ later

theorem exhausted_after_ne_cancelled (state : Enumeration V) (calls : List Signals)
    (quiet : ∀ signals ∈ calls, state.problem.budget.isCancelled signals = false)
    (before : state.exhausted ≠ some .cancelled) :
    (state.after calls).exhausted ≠ some .cancelled := by
  induction calls generalizing state with
  | nil => exact before
  | cons signals calls ih =>
      have step := call_next? signals state
      rw [after_cons]
      apply ih
      · intro later member
        rw [step.problem_eq]
        exact quiet later (List.mem_cons_of_mem _ member)
      · exact step.exhausted_ne_cancelled (quiet signals List.mem_cons_self) before

namespace Reached

variable {problem : Problem V} {taken shown : List (Tree V)} {state : Enumeration V}

/-- The sketches taken are the first ones of the levels. -/
theorem taken_eq (reached : Reached problem taken shown state) :
    taken = problem.grammar.firstSketches taken.length := by
  rcases reached.follows.early with ⟨count, early⟩
  exact Grammar.eq_firstSketches_of_prefix ((List.prefix_append _ _).trans early)

/-- When nothing waits, the levels hold no further sketch. -/
theorem sketchCount_eq_of_dry (reached : Reached problem taken shown state)
    (dry : state.worklist.toList = []) : problem.grammar.sketchCount V = taken.length := by
  have follows := reached.follows
  rw [dry] at follows
  apply le_antisymm
  · apply iSup_le
    intro count
    exact_mod_cast (follows.levelsBelow_prefix_taken count).length_le
  · rcases reached.follows.early with ⟨count, early⟩
    have within := ((List.prefix_append _ _).trans early).length_le
    exact le_trans (by exact_mod_cast within)
      (problem.grammar.length_levelsBelow_le_sketchCount count)

/-- While something waits, the levels hold more sketches than have been taken. -/
theorem lt_sketchCount_of_waiting (reached : Reached problem taken shown state)
    (waiting : state.worklist.toList ≠ []) :
    (taken.length : ℕ∞) < problem.grammar.sketchCount V := by
  rcases reached.follows.early with ⟨count, early⟩
  have positive := List.length_pos_iff.mpr waiting
  have within := early.length_le
  rw [List.length_append] at within
  have more : taken.length <
      (problem.grammar.levelsBelow count : List (Tree V)).length := by omega
  exact lt_of_lt_of_le (by exact_mod_cast more)
    (problem.grammar.length_levelsBelow_le_sketchCount count)

/-- A state that has ended without being cancelled has taken as many first sketches as
the limit allows. -/
theorem taken_eq_of_ended (reached : Reached problem taken shown state)
    (ended : state.exhausted.isSome = true) (quiet : state.exhausted ≠ some .cancelled) :
    taken = problem.grammar.firstSketches problem.budget.limit := by
  rcases Option.isSome_iff_exists.mp ended with ⟨reason, given⟩
  have right := reached.justified reason given
  have begun := reached.taken_eq
  have within := reached.within
  rw [reached.counted] at within
  cases reason with
  | cancelled => exact absurd given quiet
  | budgetSpent =>
      have spent := right.1
      rw [reached.counted, reached.same] at spent
      rw [← spent]
      exact begun
  | frontierEmpty =>
      have fewer := problem.grammar.length_firstSketches (V := V) problem.budget.limit
      rw [reached.sketchCount_eq_of_dry right,
        min_eq_right (by exact_mod_cast within)] at fewer
      have follows := reached.follows
      rw [show state.worklist.toList = [] from right] at follows
      have inside := (problem.grammar.firstSketches_prefix problem.budget.limit).trans
        (follows.levelsBelow_prefix_taken problem.budget.limit)
      exact (inside.eq_of_length (by exact_mod_cast fewer)).symm

/-- The reason for an end that is no cancellation: the levels hold no more sketches than
the limit allows, or they do. -/
theorem exhausted_cases (reached : Reached problem taken shown state)
    (ended : state.exhausted.isSome = true) (quiet : state.exhausted ≠ some .cancelled) :
    problem.grammar.sketchCount V ≤ problem.budget.limit ∧
        state.exhausted = some .frontierEmpty ∨
      problem.budget.limit < problem.grammar.sketchCount V ∧
        state.exhausted = some .budgetSpent := by
  rcases Option.isSome_iff_exists.mp ended with ⟨reason, given⟩
  have right := reached.justified reason given
  have within := reached.within
  rw [reached.counted] at within
  cases reason with
  | cancelled => exact absurd given quiet
  | frontierEmpty =>
      refine Or.inl ⟨?_, given⟩
      rw [reached.sketchCount_eq_of_dry right]
      exact_mod_cast within
  | budgetSpent =>
      refine Or.inr ⟨?_, given⟩
      have spent := right.1
      rw [reached.counted, reached.same] at spent
      rw [← spent]
      exact reached.lt_sketchCount_of_waiting right.2

/-- After the end, the programs handed out are the completions of the sketches taken. -/
theorem shown_eq_of_ended (reached : Reached problem taken shown state)
    (ended : state.exhausted.isSome = true) :
    shown = taken.flatMap problem.completions := by
  have handed := reached.handed
  rwa [reached.silent ended, List.append_nil] at handed

/-- Without a cancellation, those are the completions of the first sketches of the levels. -/
theorem shown_eq_of_uncancelled (reached : Reached problem taken shown state)
    (ended : state.exhausted.isSome = true) (quiet : state.exhausted ≠ some .cancelled) :
    shown = (problem.grammar.firstSketches problem.budget.limit).flatMap
      problem.completions := by
  rw [reached.shown_eq_of_ended ended, reached.taken_eq_of_ended ended quiet]

/-- Whatever has happened, the programs handed out are the first completions of the first
sketches of the levels. -/
theorem shown_prefix_completions (reached : Reached problem taken shown state) :
    shown <+: (problem.grammar.firstSketches problem.budget.limit).flatMap
      problem.completions := by
  have within := reached.within
  rw [reached.counted] at within
  have begun := problem.grammar.firstSketches_prefix_of_le (V := V) within
  rw [← reached.taken_eq] at begun
  have handed : shown <+: taken.flatMap problem.completions := by
    rw [← reached.handed]
    exact List.prefix_append _ _
  exact handed.trans (begun.flatMap problem.completions)

end Reached

/-- A run with more calls than there are programs within the limit has ended. -/
theorem none_mem_answers (problem : Problem V) (calls : List Signals)
    (many : ((problem.grammar.firstSketches problem.budget.limit).flatMap
      problem.completions).length < calls.length) :
    none ∈ (start problem).answers calls := by
  by_contra always
  have reached := reached_run problem calls
  have all : ((start problem).shownDuring calls).length = calls.length := by
    rw [shownDuring, List.reduceOption_length_eq_iff.mpr, length_answers]
    intro answer member
    cases answer with
    | none => exact absurd member always
    | some program => rfl
  have fewer := reached.shown_prefix_completions.length_le
  rw [all] at fewer
  exact absurd many (Nat.not_lt_of_le fewer)

/-- A run that has ended without being cancelled has handed out the completions of the first
sketches of the levels. -/
theorem shownDuring_eq_of_none_mem (problem : Problem V) (calls : List Signals)
    (quiet : ∀ signals ∈ calls, problem.budget.isCancelled signals = false)
    (nothing : none ∈ (start problem).answers calls) :
    (start problem).shownDuring calls =
      (problem.grammar.firstSketches problem.budget.limit).flatMap problem.completions := by
  have ended := isSome_exhausted_after _ _ nothing
  have uncancelled := exhausted_after_ne_cancelled (start problem) calls quiet
    (by intro impossible; cases impossible)
  exact (reached_run problem calls).shown_eq_of_uncancelled ended uncancelled

theorem drain_of_next?_eq_none {signals : Signals} {state final : Enumeration V}
    (ended : state.next? signals = (none, final)) : state.drain signals = ([], final) := by
  unfold drain
  split
  · rename_i other nothing
    rw [ended] at nothing
    cases nothing
    rfl
  · rename_i shown
    rw [ended] at shown
    cases shown

theorem drain_of_next?_eq_some {signals : Signals} {state later : Enumeration V}
    {program : Tree V} (shown : state.next? signals = (some program, later)) :
    state.drain signals =
      (program :: (later.drain signals).1, (later.drain signals).2) := by
  rw [drain]
  split
  · rename_i nothing
    rw [shown] at nothing
    cases nothing
  · rename_i same
    rw [shown] at same
    cases same
    rfl

/-- Draining calls until nothing is answered. -/
theorem drain_eq_calls (signals : Signals) (state : Enumeration V) :
    state.answers (List.replicate ((state.drain signals).1.length + 1) signals) =
        (state.drain signals).1.map some ++ [none] ∧
      state.after (List.replicate ((state.drain signals).1.length + 1) signals) =
        (state.drain signals).2 := by
  fun_induction drain signals state with
  | case1 state final ended => simp [answers, ended, List.replicate_succ]
  | case2 state program later shown programs final drained ih =>
      rw [drained] at ih
      rw [List.length_cons, List.replicate_succ, answers, after_cons, shown, ih.1, ih.2]
      exact ⟨rfl, rfl⟩

/-- What has been reached when an enumeration is drained. -/
theorem reached_drain (signals : Signals) (problem : Problem V) :
    ∃ taken, Reached problem taken ((start problem).drain signals).1
        ((start problem).drain signals).2 ∧
      ((start problem).drain signals).2.exhausted.isSome = true := by
  have calls := drain_eq_calls signals (start problem)
  have reached := reached_run problem
    (List.replicate (((start problem).drain signals).1.length + 1) signals)
  have ended := isSome_exhausted_after (start problem)
    (List.replicate (((start problem).drain signals).1.length + 1) signals)
    (by rw [calls.1]; simp)
  rw [shownDuring, calls.1, calls.2] at reached
  rw [calls.2] at ended
  have programs : (((start problem).drain signals).1.map some ++ [none]).reduceOption =
      ((start problem).drain signals).1 := by
    rw [List.reduceOption_append, List.reduceOption_singleton, Option.toList_none,
      List.append_nil, List.reduceOption, List.filterMap_map]
    exact List.filterMap_some
  rw [programs] at reached
  exact ⟨_, reached, ended⟩

theorem exhausted_drain_ne_cancelled (signals : Signals) (problem : Problem V)
    (quiet : problem.budget.isCancelled signals = false) :
    ((start problem).drain signals).2.exhausted ≠ some .cancelled := by
  rw [← (drain_eq_calls signals (start problem)).2]
  apply exhausted_after_ne_cancelled
  · intro other member
    rw [List.eq_of_mem_replicate member]
    exact quiet
  · intro impossible
    cases impossible

/-- Drained without being cancelled, an enumeration has handed out the completions of the
first sketches of the levels. -/
theorem drain_eq_flatMap (signals : Signals) (problem : Problem V)
    (quiet : problem.budget.isCancelled signals = false) :
    ((start problem).drain signals).1 =
      (problem.grammar.firstSketches problem.budget.limit).flatMap problem.completions := by
  rcases reached_drain signals problem with ⟨_, reached, ended⟩
  exact reached.shown_eq_of_uncancelled ended (exhausted_drain_ne_cancelled signals problem quiet)

end Enumeration
end ProgramSearch
