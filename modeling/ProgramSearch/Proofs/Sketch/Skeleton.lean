import Mathlib.Data.List.Nodup
import ProgramSearch.Proofs.Sketch.Program
import ProgramSearch.Proofs.Tree.Hooks

namespace ProgramSearch
namespace Tree

/-!
# Completing a sketch keeps its shape

A completion differs from its sketch in the literals of leaves alone, so both have the same
skeleton and the same number of inner nodes.  If no literal is offered twice for a symbol,
no two completions of a sketch are equal, and a program is a completion of its skeleton
exactly once.
-/

universe u

variable {V : Type u} {filler : Filler V} {sample : Sample V}

theorem innerCount_skeleton (tree : Tree V) : tree.skeleton.innerCount = tree.innerCount := by
  induction tree using Tree.induction with
  | leaf symbol literal => rfl
  | branch symbol literal child children ih =>
      have row : forestInnerCount (forestSkeletons (child :: children)) =
          forestInnerCount (child :: children) := by
        rw [forestSkeletons_eq_map, forestInnerCount_eq_sum, forestInnerCount_eq_sum,
          List.map_map]
        exact congrArg List.sum (List.map_congr_left ih)
      exact congrArg (· + 1) row

theorem innerNodes_skeleton (tree : Tree V) :
    tree.skeleton.innerNodes = tree.innerNodes.map skeleton := by
  induction tree using Tree.induction with
  | leaf symbol literal => rfl
  | branch symbol literal child children ih =>
      have row : forestInnerNodes (forestSkeletons (child :: children)) =
          (forestInnerNodes (child :: children)).map skeleton := by
        rw [forestSkeletons_eq_map, forestInnerNodes_eq_flatMap, forestInnerNodes_eq_flatMap,
          List.flatMap_map, List.map_flatMap]
        exact List.flatMap_congr ih
      exact congrArg (_ :: ·) row

theorem hookProduct_skeleton (tree : Tree V) : tree.skeleton.hookProduct = tree.hookProduct := by
  rw [hookProduct, hookProduct, innerNodes_skeleton, List.map_map]
  exact congrArg List.prod (List.map_congr_left fun inner _ => inner.innerCount_skeleton)

theorem choiceProduct_skeleton (grammar : Grammar) (tree : Tree V) :
    tree.skeleton.choiceProduct grammar = tree.choiceProduct grammar := by
  have same : ∀ inner : Tree V, choices grammar inner.skeleton = choices grammar inner := by
    rintro ⟨symbol, literal, children⟩
    have symbols : (forestSkeletons children).map Tree.symbol = children.map Tree.symbol := by
      rw [forestSkeletons_eq_map, List.map_map]
      exact List.map_congr_left fun child _ => child.symbol_skeleton
    exact congrArg (grammar.alternatives symbol).count symbols
  rw [choiceProduct, choiceProduct, innerNodes_skeleton, List.map_map]
  exact congrArg List.prod (List.map_congr_left fun inner _ => same inner)

theorem skeleton_of_mem_completions {sketch program : Tree V}
    (member : program ∈ sketch.completions filler sample) :
    program.skeleton = sketch.skeleton := by
  induction sketch using Tree.induction generalizing program with
  | leaf symbol literal =>
      rw [completions] at member
      split at member
      · rw [List.mem_singleton.mp member]
      · rcases List.mem_map.mp member with ⟨value, _, rfl⟩
        rfl
  | branch symbol literal child children ih =>
      rcases List.mem_map.mp member with ⟨completed, among, rfl⟩
      have each : List.Forall₂
          (fun tree program => (∀ other ∈ tree.completions filler sample,
              other.skeleton = tree.skeleton) ∧ program ∈ tree.completions filler sample)
          (child :: children) completed :=
        (List.forall₂_and_left _ _).mpr
          ⟨fun tree here _ completion => ih tree here completion,
            (mem_forestCompletions _ _).mp among⟩
      have row : forestSkeletons completed = forestSkeletons (child :: children) := by
        rw [forestSkeletons_eq_map, forestSkeletons_eq_map, eq_comm, ← List.forall₂_eq_eq_eq,
          List.forall₂_map_left_iff, List.forall₂_map_right_iff]
        apply each.imp
        rintro tree program ⟨same, completion⟩
        exact (same program completion).symm
      rw [skeleton, skeleton, row]

theorem innerCount_of_mem_completions {sketch program : Tree V}
    (member : program ∈ sketch.completions filler sample) :
    program.innerCount = sketch.innerCount := by
  rw [← innerCount_skeleton, skeleton_of_mem_completions member, innerCount_skeleton]

/-- A tree without literals is its own skeleton. -/
theorem skeleton_of_bare {grammar : Grammar} {tree : Tree V} (bare : grammar.Bare tree) :
    tree.skeleton = tree := by
  induction tree using Tree.induction with
  | leaf symbol literal =>
      have unfilled := bare.unfilled _ (mem_leaves_leaf.mpr rfl)
      rw [Tree.literal] at unfilled
      rw [unfilled]
      rfl
  | branch symbol literal child children ih =>
      rcases bare.derived with _ | _
      have row : forestSkeletons (child :: children) = child :: children := by
        rw [forestSkeletons_eq_map]
        have each : (child :: children).map skeleton = (child :: children).map id :=
          List.map_congr_left fun tree here => ih tree here (bare.child here)
        rw [each, List.map_id]
      rw [skeleton, row]

/-- Rows that differ in the first tree or in the others are told apart by completing. -/
theorem nodup_forestCompletions {trees : List (Tree V)}
    (each : ∀ tree ∈ trees, (tree.completions filler sample).Nodup) :
    (forestCompletions filler sample trees).Nodup := by
  induction trees with
  | nil => exact List.nodup_singleton _
  | cons tree trees ih =>
      have others := ih fun tree member => each tree (List.mem_cons_of_mem _ member)
      rw [forestCompletions, List.nodup_flatMap]
      constructor
      · intro later _
        exact (each tree List.mem_cons_self).map fun first second same =>
          (List.cons.inj same).1
      · apply others.imp
        intro later later' different row in_first in_second
        rcases List.mem_map.mp in_first with ⟨_, _, rfl⟩
        rcases List.mem_map.mp in_second with ⟨_, _, same⟩
        exact different (List.cons.inj same).2.symm

/-- No completion is listed twice if no literal is offered twice. -/
theorem nodup_completions (distinct : ∀ symbol, (filler symbol sample).Nodup)
    (sketch : Tree V) : (sketch.completions filler sample).Nodup := by
  induction sketch using Tree.induction with
  | leaf symbol literal =>
      rw [completions]
      split
      · exact List.nodup_singleton _
      · apply (distinct symbol).map
        intro first second same
        cases same
        rfl
  | branch symbol literal child children ih =>
      apply (nodup_forestCompletions ih).map
      intro first second same
      cases same
      rfl

end Tree
end ProgramSearch
