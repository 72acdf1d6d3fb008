import ProgramSearch.Budget
import ProgramSearch.Queue
import ProgramSearch.Sketch.Expansion
import ProgramSearch.Sketch.Filling

namespace ProgramSearch

/-!
# Breadth-first enumeration of programs

Sketches wait in a worklist that starts with the start symbol alone.  A sketch
taken from it is either complete, and then all its fillings are handed out one
by one, or it is replaced by its expansions at the end of the worklist.  Sketches
with fewer expansions therefore come before those with more.

The enumeration ends when the worklist is empty, when the limit is spent, or
when the watched token is raised; the reason is kept, and from then on nothing
is handed out.  The signals are looked at only when a sketch is to be taken, so
a filling already begun is finished first.

Every step takes a sketch or hands out one filling.  The pair of sketches still
allowed and fillings still to come therefore decreases, and a run always ends.
-/

universe u

variable {V : Type u}

/-- What is enumerated: the programs of a grammar, with a filler's literals,
within a budget. -/
structure Problem (V : Type u) where
  grammar : Grammar
  filler : Filler V
  sample : Sample V
  budget : Budget

/-- The sketches waiting, the filling under way, the number of sketches taken,
and the reason for the end once it has come. -/
structure Enumeration (V : Type u) where
  problem : Problem V
  worklist : Queue (Tree V)
  filling : Option (Filling V)
  explored : Nat
  exhausted : Option StopReason

namespace Enumeration

def start (problem : Problem V) : Enumeration V where
  problem := problem
  worklist := Queue.ofList [Tree.leaf problem.grammar.start]
  filling := none
  explored := 0
  exhausted := none

/-- The number of sketches waiting. -/
def frontier (state : Enumeration V) : Nat :=
  state.worklist.length

/-- The number of sketches that may still be taken. -/
def allowance (state : Enumeration V) : Nat :=
  state.problem.budget.remaining state.explored

/-- The number of programs still to come from the filling under way. -/
def pending (state : Enumeration V) : Nat :=
  match state.filling with
  | none => 0
  | some filling => filling.remaining

/-- The state after taking a sketch: fill it if it is complete, else put its
expansions behind the sketches already waiting. -/
def take (state : Enumeration V) (sketch : Tree V) (waiting : Queue (Tree V)) :
    Enumeration V :=
  if state.problem.grammar.isComplete sketch then
    { state with
      worklist := waiting
      explored := state.explored + 1
      filling := some (Filling.ofSketch state.problem.filler state.problem.sample sketch) }
  else
    { state with
      worklist := waiting.append (state.problem.grammar.expansions sketch)
      explored := state.explored + 1
      filling := none }

/-- The state after the end has come for a reason. -/
def stop (state : Enumeration V) (reason : StopReason) : Enumeration V :=
  { state with filling := none, exhausted := some reason }

@[simp] theorem problem_take (state : Enumeration V) (sketch : Tree V)
    (waiting : Queue (Tree V)) : (state.take sketch waiting).problem = state.problem := by
  unfold take
  split <;> rfl

@[simp] theorem explored_take (state : Enumeration V) (sketch : Tree V)
    (waiting : Queue (Tree V)) :
    (state.take sketch waiting).explored = state.explored + 1 := by
  unfold take
  split <;> rfl

theorem allowance_take_lt (state : Enumeration V) (sketch : Tree V)
    (waiting : Queue (Tree V)) (within : state.explored < state.problem.budget.limit) :
    (state.take sketch waiting).allowance < state.allowance := by
  simp only [allowance, Budget.remaining, problem_take, explored_take]
  omega

/-- The next program, or nothing once the end has come, with the state after it. -/
def next? (signals : Signals) (state : Enumeration V) : Option (Tree V) × Enumeration V :=
  match state.filling.bind Filling.next? with
  | some (program, rest) => (some program, { state with filling := some rest })
  | none =>
      if state.exhausted.isSome then
        (none, { state with filling := none })
      else
        match state.worklist.pop? with
        | none => (none, state.stop .frontierEmpty)
        | some (sketch, waiting) =>
            match _ : state.problem.budget.stopReason signals state.explored with
            | some reason => (none, state.stop reason)
            | none => next? signals (state.take sketch waiting)
termination_by state.allowance
decreasing_by
  exact allowance_take_lt state sketch waiting
    ((Budget.stopReason_eq_none_iff _ _ _).mp ‹_›).2

/-- A program handed out costs a sketch or a filling. -/
theorem next?_decreases {signals : Signals} {state later : Enumeration V} {program : Tree V}
    (shown : state.next? signals = (some program, later)) :
    Prod.Lex (· < ·) (· < ·) (later.allowance, later.pending)
      (state.allowance, state.pending) := by
  fun_induction next? signals state with
  | case1 state program' rest filled =>
      rcases Option.bind_eq_some_iff.mp filled with ⟨filling, present, turned⟩
      simp only [Prod.mk.injEq, Option.some.injEq] at shown
      rcases shown with ⟨-, rfl⟩
      apply Prod.Lex.right
      simpa [pending, present] using Filling.remaining_next?_lt turned
  | case2 => simp at shown
  | case3 => simp at shown
  | case4 => simp at shown
  | case5 state _ _ sketch waiting _ may ih =>
      have fewer := allowance_take_lt state sketch waiting
        ((Budget.stopReason_eq_none_iff _ _ _).mp may).2
      apply Prod.Lex.left
      rcases Prod.lex_def.mp (ih shown) with less | ⟨same, _⟩
      · exact Nat.lt_trans less fewer
      · exact Nat.lt_of_le_of_lt (Nat.le_of_eq same) fewer

/-- All programs up to the end under unchanging signals, with the final state. -/
def drain (signals : Signals) (state : Enumeration V) : List (Tree V) × Enumeration V :=
  match _ : state.next? signals with
  | (none, final) => ([], final)
  | (some program, later) =>
      let (programs, final) := drain signals later
      (program :: programs, final)
termination_by (state.allowance, state.pending)
decreasing_by exact next?_decreases ‹_›

/-- Programs already handed out, latest first, followed by up to a number more. -/
def collect (signals : Signals) :
    Nat → List (Tree V) → Enumeration V → List (Tree V) × Enumeration V
  | 0, earlier, state => (earlier.reverse, state)
  | count + 1, earlier, state =>
      match state.next? signals with
      | (none, final) => (earlier.reverse, final)
      | (some program, later) => collect signals count (program :: earlier) later

/-- The next programs, up to a number of them or the end. -/
def first (signals : Signals) (count : Nat) (state : Enumeration V) :
    List (Tree V) × Enumeration V :=
  collect signals count [] state

end Enumeration

end ProgramSearch
