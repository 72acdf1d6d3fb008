import Mathlib.Algebra.BigOperators.Group.List.Basic
import Mathlib.Data.Nat.Choose.Basic
import ProgramSearch.Proofs.Tree.Children

namespace ProgramSearch
namespace Tree

/-!
# In how many ways a tree can be expanded

The hook of an inner node is the number of inner nodes at or below it.  The product of all
hooks divides the factorial of the number of inner nodes, and the quotient is the number of
orders in which every inner node comes before those below it.  In each of these orders a
node can be expanded by every alternative that spells its children.
-/

universe u

variable {V : Type u}

mutual

/-- The nodes that have children, each with all that is below it. -/
def innerNodes : Tree V → List (Tree V)
  | node _ _ [] => []
  | node symbol literal (child :: children) =>
      node symbol literal (child :: children) :: forestInnerNodes (child :: children)

/-- The nodes that have children in several trees. -/
def forestInnerNodes : List (Tree V) → List (Tree V)
  | [] => []
  | tree :: trees => tree.innerNodes ++ forestInnerNodes trees

end

/-- How many times the symbols of the children are an alternative of the root symbol. -/
def choices (grammar : Grammar) (tree : Tree V) : Nat :=
  (grammar.alternatives tree.symbol).count (tree.children.map Tree.symbol)

/-- The product, over all inner nodes, of the number of inner nodes at or below them. -/
def hookProduct (tree : Tree V) : Nat :=
  (tree.innerNodes.map innerCount).prod

/-- The product, over all inner nodes, of the choices among alternatives. -/
def choiceProduct (grammar : Grammar) (tree : Tree V) : Nat :=
  (tree.innerNodes.map (choices grammar)).prod

theorem forestInnerNodes_eq_flatMap (trees : List (Tree V)) :
    forestInnerNodes trees = trees.flatMap innerNodes := by
  induction trees with
  | nil => rfl
  | cons tree trees ih => rw [forestInnerNodes, ih, List.flatMap_cons]

/-- A product over all inner nodes takes the root and then the children one by one. -/
theorem prod_innerNodes_node_cons (weight : Tree V → Nat) (symbol : Symbol)
    (literal : Option V) (child : Tree V) (children : List (Tree V)) :
    ((node symbol literal (child :: children)).innerNodes.map weight).prod =
      weight (node symbol literal (child :: children)) *
        ((child :: children).map fun tree => (tree.innerNodes.map weight).prod).prod := by
  rw [innerNodes, List.map_cons, List.prod_cons, forestInnerNodes_eq_flatMap, List.map_flatMap,
    List.flatMap, List.prod_flatten, List.map_map]
  rfl

theorem length_innerNodes (tree : Tree V) : tree.innerNodes.length = tree.innerCount := by
  induction tree using Tree.induction with
  | leaf symbol literal => rfl
  | branch symbol literal child children ih =>
      rw [innerNodes, List.length_cons, innerCount, forestInnerNodes_eq_flatMap,
        forestInnerCount_eq_sum, List.length_flatMap, List.map_congr_left ih]

theorem hookProduct_node_cons (symbol : Symbol) (literal : Option V) (child : Tree V)
    (children : List (Tree V)) :
    (node symbol literal (child :: children)).hookProduct =
      (forestInnerCount (child :: children) + 1) *
        ((child :: children).map hookProduct).prod :=
  prod_innerNodes_node_cons innerCount symbol literal child children

theorem choiceProduct_node_cons (grammar : Grammar) (symbol : Symbol) (literal : Option V)
    (child : Tree V) (children : List (Tree V)) :
    (node symbol literal (child :: children)).choiceProduct grammar =
      (grammar.alternatives symbol).count ((child :: children).map Tree.symbol) *
        ((child :: children).map (choiceProduct grammar)).prod :=
  prod_innerNodes_node_cons (choices grammar) symbol literal child children

/-- The product of the hooks divides the factorial of the number of inner nodes. -/
theorem hookProduct_dvd_factorial (tree : Tree V) :
    tree.hookProduct ∣ tree.innerCount.factorial := by
  induction tree using Tree.induction with
  | leaf symbol literal => exact Nat.dvd_refl 1
  | branch symbol literal child children ih =>
      have row : ∀ trees : List (Tree V),
          (∀ tree ∈ trees, tree.hookProduct ∣ tree.innerCount.factorial) →
            (trees.map hookProduct).prod ∣ (forestInnerCount trees).factorial := by
        intro trees each
        induction trees with
        | nil => exact Nat.dvd_refl 1
        | cons tree trees ih =>
            have others := ih fun other member => each other (List.mem_cons_of_mem _ member)
            have both := Nat.mul_dvd_mul (each tree List.mem_cons_self) others
            rw [List.map_cons, List.prod_cons]
            exact both.trans (Nat.factorial_mul_factorial_dvd_factorial_add _ _)
      rw [hookProduct_node_cons, innerCount, Nat.factorial_succ]
      exact Nat.mul_dvd_mul_left _ (row (child :: children) ih)

end Tree
end ProgramSearch
