import ProgramSearch.Tree.Basic

namespace ProgramSearch
namespace Tree

/-!
# The shape of a tree

The skeleton of a tree is what remains of it without its literals.  Its inner nodes,
those with children, are the nodes that have been expanded.
-/

universe u

variable {V : Type u}

/-- What a node shows without its literal: its symbol and the number of its children. -/
def frame (tree : Tree V) : Symbol × Nat :=
  (tree.symbol, tree.children.length)

mutual

/-- The tree without literals. -/
def skeleton : Tree V → Tree V
  | node symbol _ children => node symbol none (forestSkeletons children)

/-- Several trees without literals. -/
def forestSkeletons : List (Tree V) → List (Tree V)
  | [] => []
  | tree :: trees => tree.skeleton :: forestSkeletons trees

end

mutual

/-- The number of nodes that have children. -/
def innerCount : Tree V → Nat
  | node _ _ [] => 0
  | node _ _ (child :: children) => forestInnerCount (child :: children) + 1

/-- The number of nodes that have children in several trees. -/
def forestInnerCount : List (Tree V) → Nat
  | [] => 0
  | tree :: trees => tree.innerCount + forestInnerCount trees

end

theorem forestSkeletons_eq_map (trees : List (Tree V)) :
    forestSkeletons trees = trees.map skeleton := by
  induction trees with
  | nil => rfl
  | cons tree trees ih => rw [forestSkeletons, ih, List.map_cons]

@[simp] theorem innerCount_leaf (symbol : Symbol) : (leaf symbol : Tree V).innerCount = 0 := rfl

theorem innerCount_node {symbol : Symbol} {literal : Option V} {children : List (Tree V)}
    (inner : children ≠ []) :
    (node symbol literal children).innerCount = forestInnerCount children + 1 := by
  cases children with
  | nil => exact absurd rfl inner
  | cons child children => rfl

@[simp] theorem symbol_skeleton (tree : Tree V) : tree.skeleton.symbol = tree.symbol := by
  cases tree
  rfl

end Tree
end ProgramSearch
