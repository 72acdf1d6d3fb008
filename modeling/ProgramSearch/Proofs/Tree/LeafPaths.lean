import Mathlib.Data.List.Forall2
import ProgramSearch.Proofs.Tree.Children

namespace ProgramSearch
namespace Tree

/-!
# Leaf paths lead to leaves

The leaf paths of a tree and its leaves are listed by two recursions.  Each path leads to the
leaf of the same number, and of two paths the one listed first turns off to the left of the
other, so that no path is listed twice.
-/

universe u

variable {V : Type u}

/-! ## Paths that part -/

/-- The paths part at some node, where the first one takes an earlier child than the second. -/
inductive TurnsLeft : List Nat → List Nat → Prop where
  | here {index later : Nat} (less : index < later) (path other : List Nat) :
      TurnsLeft (index :: path) (later :: other)
  | inside (index : Nat) {path other : List Nat} (part : TurnsLeft path other) :
      TurnsLeft (index :: path) (index :: other)

theorem TurnsLeft.ne {path other : List Nat} (part : TurnsLeft path other) : path ≠ other := by
  induction part with
  | here less path other =>
      intro same
      exact absurd (List.cons.inj same).1 (Nat.ne_of_lt less)
  | inside index _ ih =>
      intro same
      exact ih (List.cons.inj same).2

/-! ## Each path leads to the leaf of its number -/

section LeadsTo

variable {test : Tree V → Bool}

private theorem forall₂_forestLeafPathsWhere {trees : List (Tree V)}
    (each : ∀ tree ∈ trees, List.Forall₂ (fun path leaf => tree.descendant? path = some leaf)
      (tree.leafPathsWhere test) (tree.leaves.filter test))
    (symbol : Symbol) (literal : Option V) (before : List (Tree V)) :
    List.Forall₂
      (fun path leaf => (node symbol literal (before ++ trees)).descendant? path = some leaf)
      (forestLeafPathsWhere test before.length trees)
      ((trees.flatMap leaves).filter test) := by
  induction trees generalizing before with
  | nil => exact .nil
  | cons tree trees ih =>
      have others := ih (fun tree member => each tree (List.mem_cons_of_mem _ member))
        (before ++ [tree])
      simp only [List.length_append, List.length_singleton, List.append_assoc,
        List.singleton_append] at others
      rw [forestLeafPathsWhere, List.flatMap_cons, List.filter_append]
      apply List.rel_append _ others
      rw [List.forall₂_map_left_iff]
      simp only [descendant?_child]
      exact each tree List.mem_cons_self

/-- The paths listed for a test lead to the leaves that pass it, in the same order. -/
theorem forall₂_leafPathsWhere (test : Tree V → Bool) (tree : Tree V) :
    List.Forall₂ (fun path leaf => tree.descendant? path = some leaf)
      (tree.leafPathsWhere test) (tree.leaves.filter test) := by
  induction tree using Tree.induction with
  | leaf symbol literal =>
      rw [leafPathsWhere, leaves]
      by_cases passes : test (node symbol literal []) = true
      · rw [if_pos passes, List.filter_singleton, passes]
        exact .cons rfl .nil
      · rw [if_neg passes, List.filter_singleton, Bool.of_not_eq_true passes]
        exact .nil
  | branch symbol literal child children ih =>
      rw [leafPathsWhere_node_cons, leaves_node_cons]
      exact forall₂_forestLeafPathsWhere ih symbol literal []

/-- Every leaf path leads to the leaf of its number. -/
theorem forall₂_leafPaths (tree : Tree V) :
    List.Forall₂ (fun path leaf => tree.descendant? path = some leaf)
      tree.leafPaths tree.leaves := by
  have each := tree.forall₂_leafPathsWhere fun _ => true
  rwa [List.filter_true] at each

end LeadsTo

/-! ## No path is listed twice -/

section Order

variable {test : Tree V → Bool}

theorem exists_of_mem_forestLeafPathsWhere {index : Nat} {trees : List (Tree V)}
    {path : List Nat} (member : path ∈ forestLeafPathsWhere test index trees) :
    ∃ child below, index ≤ child ∧ path = child :: below := by
  induction trees generalizing index with
  | nil => cases member
  | cons tree trees ih =>
      rw [forestLeafPathsWhere, List.mem_append, List.mem_map] at member
      rcases member with ⟨below, _, rfl⟩ | later
      · exact ⟨index, below, Nat.le_refl _, rfl⟩
      · rcases ih later with ⟨child, below, le, rfl⟩
        exact ⟨child, below, Nat.le_of_succ_le le, rfl⟩

private theorem pairwise_forestLeafPathsWhere {trees : List (Tree V)}
    (each : ∀ tree ∈ trees, (tree.leafPathsWhere test).Pairwise TurnsLeft) (index : Nat) :
    (forestLeafPathsWhere test index trees).Pairwise TurnsLeft := by
  induction trees generalizing index with
  | nil => exact .nil
  | cons tree trees ih =>
      rw [forestLeafPathsWhere, List.pairwise_append]
      refine ⟨?_, ih (fun tree member => each tree (List.mem_cons_of_mem _ member)) _, ?_⟩
      · rw [List.pairwise_map]
        exact (each tree List.mem_cons_self).imp fun part => part.inside index
      · intro first member other later
        rcases List.mem_map.mp member with ⟨below, _, rfl⟩
        rcases exists_of_mem_forestLeafPathsWhere later with ⟨child, below', less, rfl⟩
        exact .here less below below'

/-- Of two leaf paths the one listed first turns off to the left of the other. -/
theorem pairwise_leafPathsWhere (test : Tree V → Bool) (tree : Tree V) :
    (tree.leafPathsWhere test).Pairwise TurnsLeft := by
  induction tree using Tree.induction with
  | leaf symbol literal =>
      rw [leafPathsWhere]
      split
      · exact List.pairwise_singleton _ _
      · exact .nil
  | branch symbol literal child children ih =>
      rw [leafPathsWhere_node_cons]
      exact pairwise_forestLeafPathsWhere ih 0

theorem nodup_leafPaths (tree : Tree V) : tree.leafPaths.Nodup :=
  (tree.pairwise_leafPathsWhere _).imp TurnsLeft.ne

end Order

end Tree
end ProgramSearch
