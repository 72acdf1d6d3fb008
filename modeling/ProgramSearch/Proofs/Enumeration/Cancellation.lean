import ProgramSearch.Proofs.Enumeration.Ending
import ProgramSearch.Proofs.Sketch.Program

namespace ProgramSearch

/-!
# What is left after a cancellation

Once the watched token is raised no further sketch is taken.  The filling under way is
still handed out to its end, in order, and then the enumeration ends: because nothing
waits if that is so, and as cancelled otherwise, whether or not the limit is spent too.
Whenever it happens, what has been handed out is a beginning of what would have been.
-/

universe u

variable {V : Type u}

theorem Filling.sketch_next? {filling rest : Filling V} {program : Tree V}
    (shown : filling.next? = some (program, rest)) : rest.sketch = filling.sketch := by
  unfold next? at shown
  split at shown
  · cases shown
  · cases shown
    rfl

namespace Enumeration

/-- The reason for an end that comes while the token is raised. -/
def haltReason (state : Enumeration V) : StopReason :=
  if state.frontier = 0 then .frontierEmpty else .cancelled

theorem haltReason_of_empty {state : Enumeration V} (empty : state.worklist.toList = []) :
    state.haltReason = .frontierEmpty := by
  have none : state.frontier = 0 := by rw [frontier, ← Queue.length_toList, empty]; rfl
  rw [haltReason, if_pos none]

theorem haltReason_of_waiting {state : Enumeration V} (waiting : state.worklist.toList ≠ []) :
    state.haltReason = .cancelled := by
  have some : state.frontier ≠ 0 := by
    rw [frontier, ← Queue.length_toList]
    exact fun none => waiting (List.length_eq_zero_iff.mp none)
  rw [haltReason, if_neg some]

/-- What calls answer and leave when no sketch is taken any more: the programs still to
come one after another, and then the end. -/
structure Halts (state : Enumeration V) (answers : List (Option (Tree V)))
    (later : Enumeration V) : Prop where
  worklist : later.worklist = state.worklist
  explored : later.explored = state.explored
  answered : answers = (List.range answers.length).map fun index => state.toCome[index]?
  left : later.toCome = state.toCome.drop answers.length
  running : answers.length ≤ state.toCome.length → later.exhausted = state.exhausted
  ended : state.toCome.length < answers.length →
    later.exhausted = some (state.exhausted.getD state.haltReason)

namespace Halts

variable {state middle later : Enumeration V} {first second : List (Option (Tree V))}

theorem refl (state : Enumeration V) : Halts state [] state where
  worklist := rfl
  explored := rfl
  answered := rfl
  left := rfl
  running := fun _ => rfl
  ended := fun impossible => absurd impossible (Nat.not_lt_zero _)

theorem hand {program : Tree V} {rest : Filling V}
    (coming : state.toCome = program :: rest.toList) :
    Halts state [some program] { state with filling := some rest } where
  worklist := rfl
  explored := rfl
  answered := by simp [coming]
  left := by
    rw [coming]
    rfl
  running := fun _ => rfl
  ended := by
    intro impossible
    rw [coming] at impossible
    simp at impossible

/-- A call that meets the end, or comes after it. -/
theorem silent (sameWorklist : later.worklist = state.worklist)
    (sameExplored : later.explored = state.explored) (idle : state.toCome = [])
    (nothing : later.toCome = [])
    (given : later.exhausted = some (state.exhausted.getD state.haltReason)) :
    Halts state [none] later where
  worklist := sameWorklist
  explored := sameExplored
  answered := by simp [idle]
  left := by
    rw [nothing, idle]
    rfl
  running := by
    intro impossible
    simp [idle] at impossible
  ended := fun _ => given

theorem trans (early : Halts state first middle) (late : Halts middle second later) :
    Halts state (first ++ second) later where
  worklist := late.worklist.trans early.worklist
  explored := late.explored.trans early.explored
  answered := by
    have shifted : second =
        (List.range second.length).map fun index => state.toCome[first.length + index]? := by
      simpa only [early.left, List.getElem?_drop] using late.answered
    rw [List.length_append, List.range_add, List.map_append, List.map_map]
    exact congrArg₂ (· ++ ·) early.answered shifted
  left := by
    rw [late.left, early.left, List.drop_drop, List.length_append]
  running := by
    intro few
    rw [List.length_append] at few
    have rest := late.running (by rw [early.left, List.length_drop]; omega)
    rw [rest, early.running (by omega)]
  ended := by
    intro many
    rw [List.length_append] at many
    have sameReason : middle.haltReason = state.haltReason := by
      rw [haltReason, haltReason, frontier, frontier, early.worklist]
    rcases Nat.lt_or_ge state.toCome.length first.length with before | behind
    · -- The end has come during the first calls, and it stays.
      have nothing : middle.toCome.length = 0 := by
        rw [early.left, List.length_drop]
        omega
      rcases Nat.eq_zero_or_pos second.length with none | some
      · rw [late.running (by omega), early.ended before]
      · rw [late.ended (by omega), early.ended before, Option.getD_some]
    · have rest := late.ended (by rw [early.left, List.length_drop]; omega)
      rw [rest, early.running behind, sameReason]

end Halts

/-- Under a raised token a call hands out the next program of the filling under way, or it
meets the end. -/
theorem Call.halts {signals : Signals} {state later : Enumeration V}
    {taken : List (Tree V)} {answer : Option (Tree V)}
    (call : Call signals state taken answer later)
    (raised : state.problem.budget.isCancelled signals = true) :
    Halts state [answer] later := by
  cases call with
  | hand coming => exact .hand coming
  | rest idle finished =>
      rcases Option.isSome_iff_exists.mp finished with ⟨reason, given⟩
      exact .silent rfl rfl idle rfl (by rw [given, Option.getD_some])
  | dry idle running empty =>
      have reason : (state.exhausted.getD state.haltReason) = .frontierEmpty := by
        rw [running, Option.getD_none, haltReason_of_empty empty]
      exact .silent rfl rfl idle rfl (by rw [reason]; rfl)
  | stop idle running waiting refused =>
      rw [Budget.stopReason, if_pos raised] at refused
      cases refused
      have reason : (state.exhausted.getD state.haltReason) = .cancelled := by
        rw [running, Option.getD_none, haltReason_of_waiting waiting]
      exact .silent rfl rfl idle rfl (by rw [reason]; rfl)
  | take _ _ _ allowed _ =>
      have quiet := ((Budget.stopReason_eq_none_iff _ _ _).mp allowed).1
      rw [raised] at quiet
      cases quiet

/-- As long as the token is raised, calls only finish the filling under way. -/
theorem halts_after (state : Enumeration V) (calls : List Signals)
    (raised : ∀ signals ∈ calls, state.problem.budget.isCancelled signals = true) :
    Halts state (state.answers calls) (state.after calls) := by
  induction calls generalizing state with
  | nil => exact .refl state
  | cons signals calls ih =>
      have call := call_next? signals state
      have rest := ih (state.next? signals).2 (by
        intro later member
        rw [call.problem_eq]
        exact raised later (List.mem_cons_of_mem _ member))
      exact (call.halts (raised signals List.mem_cons_self)).trans rest

/-! ## The filling under way -/

/-- The filling under way is that of the sketch taken last, and the programs handed out
last are the first ones of it. -/
def Underway (problem : Problem V) (taken shown : List (Tree V)) (state : Enumeration V) :
    Prop :=
  ∀ filling, state.filling = some filling →
    ∃ before yielded, taken = before ++ [filling.sketch] ∧
      shown = before.flatMap problem.completions ++ yielded ∧
      filling.sketch.completions problem.filler problem.sample = yielded ++ filling.toList

theorem underway_of_idle {problem : Problem V} {taken shown : List (Tree V)}
    {state : Enumeration V} (idle : state.filling = none) :
    Underway problem taken shown state := by
  intro filling present
  rw [idle] at present
  cases present

theorem filling_take {state : Enumeration V} {sketch : Tree V} {waiting : Queue (Tree V)}
    {filling : Filling V} (present : (state.take sketch waiting).filling = some filling) :
    filling = Filling.ofSketch state.problem.filler state.problem.sample sketch := by
  unfold take at present
  split at present <;> cases present
  rfl

namespace Underway

variable {problem : Problem V} {taken shown : List (Tree V)} {state : Enumeration V}

theorem hand {program : Tree V} {rest : Filling V} (underway : Underway problem taken shown state)
    (filled : state.filling.bind Filling.next? = some (program, rest)) :
    Underway problem taken (shown ++ [program]) { state with filling := some rest } := by
  intro filling present
  cases present
  rcases Option.bind_eq_some_iff.mp filled with ⟨old, held, turned⟩
  rcases underway old held with ⟨before, yielded, last, handed, split⟩
  rw [Filling.sketch_next? turned]
  refine ⟨before, yielded ++ [program], last, ?_, ?_⟩
  · rw [handed, List.append_assoc]
  · rw [split, Filling.toList_of_next?_eq_some turned, List.append_assoc]
    rfl

/-- When a sketch is taken, the completions of all the earlier ones have been handed out. -/
theorem take {sketch : Tree V} {waiting : Queue (Tree V)}
    (reached : Reached problem taken shown state) (idle : state.toCome = []) :
    Underway problem (taken ++ [sketch]) shown (state.take sketch waiting) := by
  intro filling present
  rw [filling_take present, reached.same]
  refine ⟨taken, [], rfl, ?_, (Filling.toList_ofSketch_eq_completions _ _ _).symm⟩
  rw [← reached.handed, idle, List.append_nil, List.append_nil]

theorem call {signals : Signals} (reached : Reached problem taken shown state)
    (underway : Underway problem taken shown state) :
    Underway problem (taken ++ state.takenBy signals)
      (shown ++ (state.next? signals).1.toList) (state.next? signals).2 := by
  -- `Call` does not tell whose filling is under way, so the induction is on the recursion.
  fun_induction next? signals state generalizing taken with
  | case1 state program rest filled =>
      rw [state.takenBy_of_filled filled, List.append_nil]
      exact underway.hand filled
  | case2 | case3 | case4 => exact underway_of_idle rfl
  | case5 state ended running sketch waiting popped allowed ih =>
      have idle := toCome_of_bind_eq_none ended
      have unended := Option.not_isSome_iff_eq_none.mp running
      have room := ((Budget.stopReason_eq_none_iff _ _ _).mp allowed).2
      have further := ih
        (reached.take idle unended (Queue.toList_of_pop? popped) room) (take reached idle)
      rw [state.takenBy_of_allowed ended unended popped allowed]
      rwa [List.append_assoc, List.singleton_append] at further

theorem run (reached : Reached problem taken shown state)
    (underway : Underway problem taken shown state) (calls : List Signals) :
    Underway problem (taken ++ state.takenDuring calls) (shown ++ state.shownDuring calls)
      (state.after calls) := by
  induction calls generalizing taken shown state with
  | nil =>
      rw [takenDuring_nil, shownDuring_nil, List.append_nil, List.append_nil]
      exact underway
  | cons signals calls ih =>
      rw [takenDuring, shownDuring_cons, ← List.append_assoc, ← List.append_assoc]
      exact ih (reached.call (call_next? signals state)) (underway.call reached)

end Underway

theorem underway_run (problem : Problem V) (calls : List Signals) :
    Underway problem ((start problem).takenDuring calls) ((start problem).shownDuring calls)
      ((start problem).after calls) := by
  have underway := Underway.run (Reached.start problem) (underway_of_idle rfl) calls
  rwa [List.nil_append, List.nil_append] at underway

/-- Cancellation after any calls.  Let the enumeration not have ended.  The programs still
to come are then what is left of the completions of the sketch being filled.  Once the
token is raised, no sketch is taken or added any more; calls hand out those programs in
their order and nothing after them; and the first call that hands out nothing gives the
reason for the end, which is cancellation unless nothing waits.  Under any signals, what a
run hands out is a beginning of what it hands out when the token stays down. -/
theorem cancelled_at_any_call (problem : Problem V) :
    (∀ earlier state, (start problem).after earlier = state → state.exhausted = none →
      (state.filling = none → state.toCome = []) ∧
      (∀ filling, state.filling = some filling →
        ∃ before yielded,
          (start problem).takenDuring earlier = before ++ [filling.sketch] ∧
          (start problem).shownDuring earlier =
            before.flatMap problem.completions ++ yielded ∧
          filling.sketch.completions problem.filler problem.sample =
            yielded ++ state.toCome) ∧
      ∀ later, (∀ signals ∈ later, problem.budget.isCancelled signals = true) →
        (state.after later).explored = state.explored ∧
        (state.after later).frontier = state.frontier ∧
        state.answers later =
          (List.range later.length).map (fun index => state.toCome[index]?) ∧
        (later.length ≤ state.toCome.length → (state.after later).exhausted = none) ∧
        (state.toCome.length < later.length →
          (state.after later).exhausted =
            some (if state.frontier = 0 then .frontierEmpty else .cancelled))) ∧
    ∀ calls calm, problem.budget.isCancelled calm = false →
      (start problem).shownDuring calls <+: ((start problem).drain calm).1 := by
  refine ⟨?_, ?_⟩
  · intro earlier state met running
    subst met
    refine ⟨fun idle => by rw [toCome, idle], ?_, ?_⟩
    · intro filling present
      rw [toCome, present]
      exact underway_run problem earlier filling present
    · intro later raised
      have halts := halts_after ((start problem).after earlier) later (by
        rw [problem_after]
        exact raised)
      have count := length_answers ((start problem).after earlier) later
      have frontier := congrArg Queue.length halts.worklist
      have answered := halts.answered
      have still := halts.running
      have ended := halts.ended
      rw [count] at answered still ended
      rw [running] at still ended
      exact ⟨halts.explored, frontier, answered, still, ended⟩
  · intro calls calm quiet
    rw [drain_eq_flatMap calm problem quiet]
    exact (reached_run problem calls).shown_prefix_completions

/-- The looping grammar with the literals one and two, within four sketches and watching a
token. -/
def watchedProblem : Problem Nat :=
  ⟨Grammar.looping, fun _ _ => [1, 2], ⟨3, []⟩, (Budget.ofLimit 4).watching ⟨0⟩⟩

/-- Cancelled after `e(1)`, when the limit is spent as well, the enumeration still hands out
`e(2)` and then ends as cancelled. -/
theorem cancelled_at_any_call_spent :
    ((start watchedProblem).after [Signals.none]).exhausted = none ∧
      ((start watchedProblem).after [Signals.none]).explored = watchedProblem.budget.limit ∧
      (∀ signals ∈ List.replicate 2 (Signals.none.raise ⟨0⟩),
        watchedProblem.budget.isCancelled signals = true) ∧
      ((start watchedProblem).after [Signals.none]).answers
          (List.replicate 2 (Signals.none.raise ⟨0⟩)) =
        [some (Grammar.smallestProgram 2), none] ∧
      (((start watchedProblem).after [Signals.none]).after
          (List.replicate 2 (Signals.none.raise ⟨0⟩))).exhausted = some .cancelled ∧
      watchedProblem.budget.isCancelled Signals.none = false ∧
      (start watchedProblem).shownDuring
          (Signals.none :: List.replicate 2 (Signals.none.raise ⟨0⟩)) <+:
        ((start watchedProblem).drain Signals.none).1 := by
  have cancelled := cancelled_at_any_call watchedProblem
  have running : ((start watchedProblem).after [Signals.none]).exhausted = none := by
    decide +kernel
  have spent : ((start watchedProblem).after [Signals.none]).explored =
      watchedProblem.budget.limit := by
    decide +kernel
  have coming : ((start watchedProblem).after [Signals.none]).toCome =
      [Grammar.smallestProgram 2] := by
    decide +kernel
  have waiting : ((start watchedProblem).after [Signals.none]).frontier = 6 := by
    decide +kernel
  have raised : ∀ signals ∈ List.replicate 2 (Signals.none.raise ⟨0⟩),
      watchedProblem.budget.isCancelled signals = true := by
    decide
  have quiet : watchedProblem.budget.isCancelled Signals.none = false := by decide
  rcases (cancelled.1 [Signals.none] _ rfl running).2.2 _ raised with
    ⟨_, _, answered, _, ended⟩
  rw [coming] at answered ended
  rw [waiting] at ended
  exact ⟨running, spent, raised, answered, ended (by decide), quiet, cancelled.2 _ _ quiet⟩

end Enumeration
end ProgramSearch
