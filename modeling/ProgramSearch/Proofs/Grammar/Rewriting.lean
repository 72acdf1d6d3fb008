import ProgramSearch.Proofs.Grammar.Derivation

namespace ProgramSearch
namespace Grammar

/-!
# What a rewriting changes

A rewriting takes one leaf and one alternative of its symbol.  An empty alternative leaves
the tree as it is.  Any other one puts the symbols of the alternative in the place of the
leaf, in the row of all leaves, and adds one inner node.  Therefore a sketch has at most as
many inner nodes as its level says, and exactly as many when no alternative in use is
empty.
-/

universe u

variable {V : Type u} {grammar : Grammar}

/-- The tree that results when a leaf of a tree is expanded by an alternative.  The leaf is
told by the leaves on both sides of it. -/
structure Expands (grammar : Grammar) (tree rewritten : Tree V) (left : List (Tree V))
    (leaf : Tree V) (right : List (Tree V)) (body : List Symbol) : Prop where
  place : tree.leaves = left ++ leaf :: right
  alternative : body ∈ grammar.alternatives leaf.symbol
  kept : body = [] → rewritten = tree
  replaced : body ≠ [] → rewritten.leaves = left ++ body.map Tree.leaf ++ right
  grown : body ≠ [] → rewritten.innerCount = tree.innerCount + 1

theorem forestLeaves_map_leaf (body : List Symbol) :
    (body.map Tree.leaf).flatMap Tree.leaves = (body.map Tree.leaf : List (Tree V)) := by
  induction body with
  | nil => rfl
  | cons symbol body ih =>
      rw [List.map_cons, List.flatMap_cons, ih]
      rfl

theorem forestInnerCount_map_leaf (body : List Symbol) :
    Tree.forestInnerCount (body.map Tree.leaf : List (Tree V)) = 0 := by
  induction body with
  | nil => rfl
  | cons symbol body ih =>
      rw [List.map_cons, Tree.forestInnerCount, ih]
      rfl

namespace Expands

/-- A leaf of its own is expanded to a node above the symbols of the alternative. -/
theorem leaf {symbol : Symbol} {literal : Option V} {body : List Symbol}
    (alternative : body ∈ grammar.alternatives symbol) :
    grammar.Expands (.node symbol literal [])
      (Tree.addChildren (body.map Tree.leaf) (.node symbol literal [])) []
      (.node symbol literal []) [] body where
  place := rfl
  alternative := alternative
  kept := by
    rintro rfl
    rfl
  replaced := by
    intro inner
    cases body with
    | nil => exact absurd rfl inner
    | cons first body =>
        have row := forestLeaves_map_leaf (V := V) (first :: body)
        rw [List.nil_append, List.append_nil]
        exact (Tree.leaves_node_cons symbol none _ _).trans row
  grown := by
    intro inner
    cases body with
    | nil => exact absurd rfl inner
    | cons first body =>
        have none := forestInnerCount_map_leaf (V := V) (first :: body)
        exact congrArg (· + 1) none

theorem mem_leaves {tree rewritten : Tree V} {left : List (Tree V)} {leaf : Tree V}
    {right : List (Tree V)} {body : List Symbol}
    (expands : grammar.Expands tree rewritten left leaf right body) : leaf ∈ tree.leaves := by
  rw [expands.place]
  exact List.mem_append_right _ List.mem_cons_self

/-- Expanding a leaf below one child expands it below the parent. -/
theorem child {tree rewritten : Tree V} {left : List (Tree V)} {leaf : Tree V}
    {right : List (Tree V)} {body : List Symbol}
    (expands : grammar.Expands tree rewritten left leaf right body) (symbol : Symbol)
    (literal : Option V) (before behind : List (Tree V)) :
    grammar.Expands (.node symbol literal (before ++ tree :: behind))
      (.node symbol literal (before ++ rewritten :: behind))
      (before.flatMap Tree.leaves ++ left) leaf (right ++ behind.flatMap Tree.leaves) body where
  place := by
    rw [Tree.leaves_node (by simp), List.flatMap_append, List.flatMap_cons, expands.place]
    simp only [List.append_assoc, List.cons_append]
  alternative := expands.alternative
  kept := by
    intro empty
    rw [expands.kept empty]
  replaced := by
    intro inner
    rw [Tree.leaves_node (by simp), List.flatMap_append, List.flatMap_cons,
      expands.replaced inner]
    simp only [List.append_assoc]
  grown := by
    intro inner
    rw [Tree.innerCount_node (by simp), Tree.innerCount_node (by simp),
      Tree.forestInnerCount_eq_sum, Tree.forestInnerCount_eq_sum]
    simp only [List.map_append, List.map_cons, List.sum_append, List.sum_cons,
      expands.grown inner]
    omega

end Expands

/-- Every rewriting expands a leaf by an alternative. -/
theorem expands_of_mem_rewrites {tree rewritten : Tree V}
    (member : rewritten ∈ tree.rewrites grammar) :
    ∃ left leaf right body, grammar.Expands tree rewritten left leaf right body := by
  induction tree using Tree.induction generalizing rewritten with
  | leaf symbol literal =>
      rcases List.mem_map.mp member with ⟨body, alternative, rfl⟩
      exact ⟨_, _, _, _, .leaf alternative⟩
  | branch symbol literal child children ih =>
      rcases List.mem_map.mp member with ⟨trees, among, rfl⟩
      rcases mem_forestRewrites.mp among with
        ⟨before, tree, behind, tree', split, rewriting, rfl⟩
      have here : tree ∈ child :: children := by
        rw [split]
        exact List.mem_append_right _ List.mem_cons_self
      rcases ih tree here rewriting with ⟨left, leaf, right, body, expands⟩
      rw [split]
      exact ⟨_, _, _, _, expands.child symbol literal before behind⟩

/-- Every leaf is expanded by every alternative of its symbol in some rewriting. -/
theorem exists_expands {tree leaf : Tree V} (member : leaf ∈ tree.leaves)
    {body : List Symbol} (alternative : body ∈ grammar.alternatives leaf.symbol) :
    ∃ rewritten ∈ tree.rewrites grammar, ∃ left right,
      grammar.Expands tree rewritten left leaf right body := by
  induction tree using Tree.induction with
  | leaf symbol literal =>
      rw [Tree.mem_leaves_leaf.mp member] at alternative ⊢
      exact ⟨_, List.mem_map.mpr ⟨body, alternative, rfl⟩, _, _, .leaf alternative⟩
  | branch symbol literal child children ih =>
      rcases (Tree.mem_leaves_node (List.cons_ne_nil _ _)).mp member with ⟨tree, here, below⟩
      rcases ih tree here below with ⟨tree', rewriting, left, right, expands⟩
      rcases List.append_of_mem here with ⟨before, behind, split⟩
      have among : before ++ tree' :: behind ∈
          Tree.forestRewrites grammar (child :: children) :=
        mem_forestRewrites.mpr ⟨before, tree, behind, tree', split, rewriting, rfl⟩
      have whole := expands.child symbol literal before behind
      rw [← split] at whole
      exact ⟨_, List.mem_map.mpr ⟨_, among, rfl⟩, _, _, whole⟩

/-- A rewriting adds at most one inner node. -/
theorem innerCount_le_of_mem_rewrites {tree rewritten : Tree V}
    (member : rewritten ∈ tree.rewrites grammar) :
    rewritten.innerCount ≤ tree.innerCount + 1 := by
  rcases expands_of_mem_rewrites member with ⟨_, _, _, body, expands⟩
  by_cases empty : body = []
  · rw [expands.kept empty]
    exact Nat.le_succ _
  · exact Nat.le_of_eq (expands.grown empty)

/-- A sketch has at most as many inner nodes as the number of its level. -/
theorem innerCount_le_of_mem_level {count : Nat} {sketch : Tree V}
    (member : sketch ∈ grammar.level count) : sketch.innerCount ≤ count := by
  induction count generalizing sketch with
  | zero =>
      rw [List.mem_singleton.mp member]
      exact Nat.le_refl _
  | succ count ih =>
      rcases List.mem_flatMap.mp member with ⟨earlier, among, rewriting⟩
      have grown := innerCount_le_of_mem_rewrites rewriting
      exact grown.trans (Nat.succ_le_succ (ih among))

end Grammar
end ProgramSearch
