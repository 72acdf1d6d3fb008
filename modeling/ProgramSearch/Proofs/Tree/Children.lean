import Mathlib.Algebra.GroupWithZero.Nat
import ProgramSearch.Tree.Path
import ProgramSearch.Tree.Shape

namespace ProgramSearch
namespace Tree

/-!
# One child among others

Trees are taken apart at the root: a node is a leaf, or it has a first child and
others.  A path that starts with the number of a child acts on that child alone, and
leaves its siblings on both sides and the root as they are.
-/

universe u

variable {V : Type u}

/-- A property of all leaves that every node inherits from its children holds of every
tree. -/
@[elab_as_elim]
theorem induction {motive : Tree V → Prop}
    (leaf : ∀ symbol literal, motive (node symbol literal []))
    (branch : ∀ symbol literal child children,
      (∀ tree ∈ child :: children, motive tree) →
        motive (node symbol literal (child :: children))) :
    ∀ tree, motive tree
  | node symbol literal [] => leaf symbol literal
  | node symbol literal (child :: children) =>
      branch symbol literal child children fun tree _ => induction leaf branch tree

/-- A property that every node inherits from its children holds of every tree; a leaf inherits
it from none. -/
@[elab_as_elim]
theorem induction_children {motive : Tree V → Prop}
    (inherit : ∀ symbol literal children, (∀ child ∈ children, motive child) →
      motive (node symbol literal children)) : ∀ tree, motive tree := by
  intro tree
  induction tree using Tree.induction with
  | leaf symbol literal => exact inherit symbol literal [] (List.forall_mem_nil _)
  | branch symbol literal child children ih => exact inherit symbol literal _ ih

theorem mem_leaves_leaf {symbol : Symbol} {literal : Option V} {leaf : Tree V} :
    leaf ∈ (node symbol literal []).leaves ↔ leaf = node symbol literal [] := by
  rw [leaves, List.mem_singleton]

theorem leaves_node_cons (symbol : Symbol) (literal : Option V) (child : Tree V)
    (children : List (Tree V)) :
    (node symbol literal (child :: children)).leaves =
      (child :: children).flatMap leaves := by
  rw [leaves, forestLeaves_eq_flatMap, List.flatMap_cons]

theorem leaves_node {symbol : Symbol} {literal : Option V} {children : List (Tree V)}
    (inner : children ≠ []) :
    (node symbol literal children).leaves = children.flatMap leaves := by
  cases children with
  | nil => exact absurd rfl inner
  | cons child children => exact leaves_node_cons symbol literal child children

/-- The leaves below a node are those of its children. -/
theorem mem_leaves_node {symbol : Symbol} {literal : Option V} {children : List (Tree V)}
    (inner : children ≠ []) {leaf : Tree V} :
    leaf ∈ (node symbol literal children).leaves ↔
      ∃ child ∈ children, leaf ∈ child.leaves := by
  cases children with
  | nil => exact absurd rfl inner
  | cons child children => rw [leaves_node_cons, List.mem_flatMap]

theorem children_of_mem_leaves {tree leaf : Tree V} (member : leaf ∈ tree.leaves) :
    leaf.children = [] := by
  induction tree using Tree.induction with
  | leaf symbol literal =>
      rw [mem_leaves_leaf.mp member]
      rfl
  | branch symbol literal child children ih =>
      rcases (mem_leaves_node (List.cons_ne_nil _ _)).mp member with ⟨tree, among, below⟩
      exact ih tree among below

theorem forestInnerCount_eq_sum (trees : List (Tree V)) :
    forestInnerCount trees = (trees.map innerCount).sum := by
  induction trees with
  | nil => rfl
  | cons tree trees ih => rw [forestInnerCount, ih, List.map_cons, List.sum_cons]

/-- A path goes on in the child that it names first. -/
theorem descendant?_cons_eq_some_iff {index : Nat} {path : List Nat} {symbol : Symbol}
    {literal : Option V} {children : List (Tree V)} {part : Tree V} :
    (node symbol literal children).descendant? (index :: path) = some part ↔
      ∃ child, children[index]? = some child ∧ child.descendant? path = some part := by
  rw [descendant?, Tree.children]
  cases children[index]? <;> simp

section Child

variable (symbol : Symbol) (literal : Option V)
variable (before : List (Tree V)) (child : Tree V) (behind : List (Tree V))

theorem descendant?_child (path : List Nat) :
    descendant? (before.length :: path) (node symbol literal (before ++ child :: behind)) =
      descendant? path child := by
  simp [descendant?, children]

/-- A change below one child changes that child only. -/
theorem updateAt?_child (change : Tree V → Tree V) (path : List Nat) :
    updateAt? change (before.length :: path)
        (node symbol literal (before ++ child :: behind)) =
      (updateAt? change path child).map fun changed =>
        node symbol literal (before ++ changed :: behind) := by
  have here : (before ++ child :: behind)[before.length]? = some child := by simp
  simp only [updateAt?, here]
  cases updateAt? change path child with
  | none => rfl
  | some changed => simp

end Child

/-- The leaf paths of a node that has children are those of its children, each behind
its child's number. -/
theorem leafPathsWhere_node_cons (test : Tree V → Bool) (symbol : Symbol)
    (literal : Option V) (child : Tree V) (children : List (Tree V)) :
    leafPathsWhere test (node symbol literal (child :: children)) =
      forestLeafPathsWhere test 0 (child :: children) := by
  rw [leafPathsWhere, forestLeafPathsWhere]

private theorem forestLeafPathsWhere_eq_nil_iff {test : Tree V → Bool}
    {trees : List (Tree V)}
    (each : ∀ tree ∈ trees,
      (leafPathsWhere test tree = [] ↔ ∀ leaf ∈ tree.leaves, test leaf = false))
    (index : Nat) :
    forestLeafPathsWhere test index trees = [] ↔
      ∀ tree ∈ trees, ∀ leaf ∈ tree.leaves, test leaf = false := by
  induction trees generalizing index with
  | nil => simp [forestLeafPathsWhere]
  | cons tree trees ih =>
      have others := ih (fun tree member => each tree (List.mem_cons_of_mem _ member))
        (index + 1)
      rw [forestLeafPathsWhere, List.append_eq_nil_iff, List.map_eq_nil_iff, others,
        each tree List.mem_cons_self, List.forall_mem_cons]

/-- No path is listed exactly when no leaf passes the test. -/
theorem leafPathsWhere_eq_nil_iff (test : Tree V → Bool) (tree : Tree V) :
    leafPathsWhere test tree = [] ↔ ∀ leaf ∈ tree.leaves, test leaf = false := by
  induction tree using Tree.induction with
  | leaf symbol literal => simp [leafPathsWhere, leaves]
  | branch symbol literal child children ih =>
      rw [leafPathsWhere_node_cons, forestLeafPathsWhere_eq_nil_iff ih, leaves_node_cons]
      constructor
      · intro none leaf member
        rcases List.mem_flatMap.mp member with ⟨tree, among, below⟩
        exact none tree among leaf below
      · intro none tree among leaf below
        exact none leaf (List.mem_flatMap.mpr ⟨tree, among, below⟩)

end Tree
end ProgramSearch
