import Mathlib.Data.List.Basic
import ProgramSearch.Enumeration.Levels

namespace ProgramSearch

/-!
# Walks of rewritings

A walk goes from an item to one of its successors, and on from there.  The ends of all walks
of one length are listed once for each walk, so that an item reached in several ways is
listed several times.  A level is the list of the ends of all walks of rewritings, as long as
its number, from the start symbol.
-/

universe u v

section Walk

variable {α : Type u} {next : α → List α}

/-- The last items of all walks of a given length from an item, in order and one for each
walk. -/
def walkEnds (next : α → List α) : Nat → α → List α
  | 0, item => [item]
  | count + 1, item => (next item).flatMap (walkEnds next count)

/-- A walk may also be seen from its last step. -/
theorem walkEnds_succ_eq_flatMap (count : Nat) (item : α) :
    walkEnds next (count + 1) item = (walkEnds next count item).flatMap next := by
  induction count generalizing item with
  | zero => simp [walkEnds]
  | succ count ih =>
      calc walkEnds next (count + 1 + 1) item
          = (next item).flatMap (walkEnds next (count + 1)) := rfl
        _ = (next item).flatMap fun other => (walkEnds next count other).flatMap next := by
            apply List.flatMap_congr
            intro other _
            exact ih other
        _ = (walkEnds next (count + 1) item).flatMap next := by
            rw [← List.flatMap_assoc]
            rfl

/-- Where no walk of a length leads, no longer one leads either. -/
theorem walkEnds_eq_nil_of_le {fewer more : Nat} {item : α}
    (dry : walkEnds next fewer item = []) (le : fewer ≤ more) :
    walkEnds next more item = [] := by
  induction le with
  | refl => exact dry
  | step _ ih => rw [walkEnds_succ_eq_flatMap, ih, List.flatMap_nil]

/-- Walks from finitely many items are bounded together if they are bounded one by one. -/
theorem exists_bound {items : List α}
    (each : ∀ item ∈ items, ∃ bound, walkEnds next bound item = []) :
    ∃ bound, ∀ item ∈ items, walkEnds next bound item = [] := by
  induction items with
  | nil => exact ⟨0, fun item member => absurd member List.not_mem_nil⟩
  | cons item items ih =>
      rcases each item List.mem_cons_self with ⟨first, dry⟩
      rcases ih fun other member => each other (List.mem_cons_of_mem _ member) with
        ⟨rest, others⟩
      refine ⟨max first rest, List.forall_mem_cons.mpr ⟨?_, ?_⟩⟩
      · exact walkEnds_eq_nil_of_le dry (Nat.le_max_left _ _)
      · intro other member
        exact walkEnds_eq_nil_of_le (others other member) (Nat.le_max_right _ _)

/-- What every step keeps holds at the end of every walk. -/
theorem of_mem_walkEnds {kept : α → Prop}
    (step : ∀ item, kept item → ∀ other ∈ next item, kept other) {count : Nat} {item last : α}
    (start : kept item) (reached : last ∈ walkEnds next count item) : kept last := by
  induction count generalizing item with
  | zero =>
      rw [List.mem_singleton.mp reached]
      exact start
  | succ count ih =>
      rcases List.mem_flatMap.mp reached with ⟨other, among, further⟩
      exact ih (step item start other among) further

/-- What grows by at most one in every step grows by at most the length of a walk. -/
theorem le_of_mem_walkEnds (measure : α → Nat)
    (step : ∀ item, ∀ other ∈ next item, measure other ≤ measure item + 1) {count : Nat}
    {item last : α} (reached : last ∈ walkEnds next count item) :
    measure last ≤ measure item + count := by
  induction count generalizing item with
  | zero =>
      rw [List.mem_singleton.mp reached]
      exact Nat.le_refl _
  | succ count ih =>
      rcases List.mem_flatMap.mp reached with ⟨other, among, further⟩
      calc measure last
          ≤ measure other + count := ih further
        _ ≤ measure item + 1 + count := Nat.add_le_add_right (step item other among) count
        _ = measure item + (count + 1) := Nat.add_right_comm _ _ _

/-- Walks run alike under a map that takes steps to steps, as long as they stay where it
does. -/
theorem walkEnds_map {β : Type v} {next' : β → List β} (image : α → β) {kept : α → Prop}
    (alike : ∀ item, kept item → next' (image item) = (next item).map image)
    (step : ∀ item, kept item → ∀ other ∈ next item, kept other) (count : Nat) {item : α}
    (start : kept item) :
    walkEnds next' count (image item) = (walkEnds next count item).map image := by
  induction count generalizing item with
  | zero => rfl
  | succ count ih =>
      rw [walkEnds, walkEnds, alike item start, List.flatMap_map, List.map_flatMap]
      apply List.flatMap_congr
      intro other among
      exact ih (step item start other among)

end Walk

/-- A level holds the ends of all walks of rewritings from the start symbol. -/
theorem Grammar.level_eq_walkEnds {V : Type u} (grammar : Grammar) (count : Nat) :
    (grammar.level count : List (Tree V)) =
      walkEnds (Tree.rewrites grammar) count (Tree.leaf grammar.start) := by
  induction count with
  | zero => rfl
  | succ count ih => rw [walkEnds_succ_eq_flatMap, ← ih, level]

end ProgramSearch
