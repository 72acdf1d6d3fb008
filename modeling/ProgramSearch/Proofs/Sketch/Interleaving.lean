import Mathlib.Data.Nat.Choose.Sum
import ProgramSearch.Proofs.Sketch.Walk

namespace ProgramSearch

/-!
# Counting walks, alone and side by side

The walks from an item to a goal are counted by their first step.  When two items stand side
by side and each step moves one of them, a walk of the pair is a walk of either item and a
choice of which steps belong to the first.  The number of walks of the pair to given ends is
therefore a sum, over all ways to divide the steps, of binomial coefficients times the
numbers of walks of the items.
-/

universe u v w

section Count

variable {α : Type u} [BEq α]

/-- The walks of a given length to a goal are those that begin with any of the steps. -/
theorem count_walkEnds_succ (next : α → List α) (count : Nat) (item goal : α) :
    (walkEnds next (count + 1) item).count goal =
      ((next item).map fun other => (walkEnds next count other).count goal).sum := by
  rw [walkEnds, List.count_flatMap]
  rfl

variable [LawfulBEq α]

/-- A sum over a list in which one item counts is a multiple of what it counts. -/
theorem sum_map_eq_count_mul {items : List α} (item : α) (summand : α → Nat)
    (others : ∀ other, other ≠ item → other ∈ items → summand other = 0) :
    (items.map summand).sum = items.count item * summand item := by
  classical
  have single := List.sum_map_eq_nsmul_single item summand others
  rw [smul_eq_mul] at single
  convert single

/-- No walk to a goal is shorter than what a measure that grows by at most one allows. -/
theorem count_walkEnds_eq_zero_of_lt {next : α → List α} (measure : α → Nat)
    (step : ∀ item, ∀ other ∈ next item, measure other ≤ measure item + 1) {count : Nat}
    {item goal : α} (few : measure item + count < measure goal) :
    (walkEnds next count item).count goal = 0 := by
  apply List.count_eq_zero.mpr
  intro member
  exact absurd (le_of_mem_walkEnds measure step member) (Nat.not_le_of_lt few)

end Count

section Interleaving

variable {α : Type u} {β : Type v} {γ : Type w}

/-- A sum over a list of sums may be taken in either order. -/
private theorem sum_map_sum (items : List α) (splits : Finset (Nat × Nat))
    (summand : α → Nat × Nat → Nat) :
    (items.map fun item => ∑ split ∈ splits, summand item split).sum =
      ∑ split ∈ splits, (items.map fun item => summand item split).sum :=
  Multiset.sum_map_sum_map (items : Multiset α) splits.val

variable [BEq α] [LawfulBEq α] [BEq β] [LawfulBEq β] [BEq γ] [LawfulBEq γ]
variable {first : α → List α} {second : β → List β} {both : γ → List γ} {pair : α → β → γ}

/-- The number of walks of a pair in which every step moves one of the two. -/
theorem count_walkEnds_pair (injective : Function.Injective2 pair)
    (steps : ∀ item other, both (pair item other) =
      (first item).map (fun moved => pair moved other) ++ (second other).map (pair item))
    (count : Nat) (item goal : α) (other otherGoal : β) :
    (walkEnds both count (pair item other)).count (pair goal otherGoal) =
      ∑ split ∈ Finset.HasAntidiagonal.antidiagonal count, count.choose split.1 *
        ((walkEnds first split.1 item).count goal *
          (walkEnds second split.2 other).count otherGoal) := by
  induction count generalizing item other with
  | zero =>
      by_cases here : item = goal <;> by_cases there : other = otherGoal <;>
        simp [walkEnds, injective.eq_iff, here, there]
  | succ count ih =>
      -- The first step moves one of the two, and Pascal's rule joins both cases.
      have begun : ((first item).map fun moved =>
            (walkEnds both count (pair moved other)).count (pair goal otherGoal)).sum =
          ∑ split ∈ Finset.HasAntidiagonal.antidiagonal count, count.choose split.2 *
            ((walkEnds first (split.1 + 1) item).count goal *
              (walkEnds second split.2 other).count otherGoal) := by
        simp only [ih, sum_map_sum]
        apply Finset.sum_congr rfl
        intro split member
        rw [Nat.choose_symm_of_eq_add (Finset.HasAntidiagonal.mem_antidiagonal.mp member).symm,
          List.sum_map_mul_left, List.sum_map_mul_right, count_walkEnds_succ]
      have waited : ((second other).map fun moved =>
            (walkEnds both count (pair item moved)).count (pair goal otherGoal)).sum =
          ∑ split ∈ Finset.HasAntidiagonal.antidiagonal count, count.choose split.1 *
            ((walkEnds first split.1 item).count goal *
              (walkEnds second (split.2 + 1) other).count otherGoal) := by
        simp only [ih, sum_map_sum]
        apply Finset.sum_congr rfl
        intro split _
        rw [List.sum_map_mul_left, List.sum_map_mul_left, count_walkEnds_succ]
      have pascal := Finset.sum_antidiagonal_choose_succ_mul (R := ℕ)
        (fun before behind => (walkEnds first before item).count goal *
          (walkEnds second behind other).count otherGoal) count
      simp only [Nat.cast_id] at pascal
      rw [count_walkEnds_succ, steps, List.map_append, List.sum_append, List.map_map,
        List.map_map, pascal, Nat.add_comm]
      exact congrArg₂ (· + ·) waited begun

end Interleaving

end ProgramSearch
