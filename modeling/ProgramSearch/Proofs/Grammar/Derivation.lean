import Mathlib.Data.List.Basic
import ProgramSearch.Enumeration.Levels
import ProgramSearch.Grammar.Derivation
import ProgramSearch.Proofs.Tree.Children
import ProgramSearch.Tree.Shape

namespace ProgramSearch
namespace Grammar

/-!
# Derived trees are those that rewriting reaches

Rewriting keeps a tree derived and bare of literals, and completing it gives programs
only.  Conversely the skeleton of a derived tree is reached from its root symbol in as
many rewritings as the tree has inner nodes: the root is expanded first, and then its
children from left to right, each while its siblings stay as they are.  A program is one
of the completions of its skeleton.
-/

universe u

variable {V : Type u} {grammar : Grammar}

/-! ## Rewriting keeps trees derived -/

/-- In a rewritten row one tree is rewritten and all others are kept. -/
theorem mem_forestRewrites {trees rewritten : List (Tree V)} :
    rewritten ∈ Tree.forestRewrites grammar trees ↔
      ∃ before tree behind tree', trees = before ++ tree :: behind ∧
        tree' ∈ tree.rewrites grammar ∧ rewritten = before ++ tree' :: behind := by
  induction trees generalizing rewritten with
  | nil => simp [Tree.forestRewrites]
  | cons first trees ih =>
      rw [Tree.forestRewrites, List.mem_append, List.mem_map, List.mem_map]
      constructor
      · rintro (⟨tree', member, rfl⟩ | ⟨later, member, rfl⟩)
        · exact ⟨[], first, trees, tree', rfl, member, rfl⟩
        · rcases ih.mp member with ⟨before, tree, behind, tree', rfl, among, rfl⟩
          exact ⟨first :: before, tree, behind, tree', rfl, among, rfl⟩
      · rintro ⟨before, tree, behind, tree', split, member, rfl⟩
        cases before with
        | nil =>
            cases split
            exact Or.inl ⟨tree', member, rfl⟩
        | cons _ before =>
            cases split
            exact Or.inr ⟨before ++ tree' :: behind,
              ih.mpr ⟨before, tree, behind, tree', rfl, member, rfl⟩, rfl⟩

/-- A derived tree without any literal. -/
structure Bare (grammar : Grammar) (tree : Tree V) : Prop where
  derived : grammar.Derived tree
  unfilled : ∀ leaf ∈ tree.leaves, leaf.literal = none

namespace Bare

theorem leaf (symbol : Symbol) : grammar.Bare (Tree.leaf symbol : Tree V) where
  derived := .leaf symbol none
  unfilled := by
    intro leaf member
    rw [Tree.mem_leaves_leaf.mp member]
    rfl

theorem branch {symbol : Symbol} {children : List (Tree V)} (inner : children ≠ [])
    (spelled : children.map Tree.symbol ∈ grammar.alternatives symbol)
    (below : ∀ child ∈ children, grammar.Bare child) :
    grammar.Bare (.node symbol none children) where
  derived := .branch symbol children inner spelled fun child member =>
    (below child member).derived
  unfilled := by
    intro leaf member
    rcases (Tree.mem_leaves_node inner).mp member with ⟨child, among, under⟩
    exact (below child among).unfilled leaf under

theorem child {symbol : Symbol} {literal : Option V} {children : List (Tree V)}
    (bare : grammar.Bare (.node symbol literal children)) {child : Tree V}
    (member : child ∈ children) : grammar.Bare child where
  derived := bare.derived.child member
  unfilled := by
    intro leaf under
    apply bare.unfilled
    exact (Tree.mem_leaves_node (List.ne_nil_of_mem member)).mpr ⟨child, member, under⟩

/-- A bare leaf with the symbols of an alternative as children; an empty alternative
leaves it as it is. -/
theorem expand {symbol : Symbol} {body : List Symbol}
    (alternative : body ∈ grammar.alternatives symbol) :
    grammar.Bare (Tree.addChildren (body.map Tree.leaf) (Tree.leaf symbol : Tree V)) := by
  cases body with
  | nil => exact leaf symbol
  | cons first body =>
      have spelled : ((first :: body).map (Tree.leaf : Symbol → Tree V)).map Tree.symbol =
          first :: body := by
        rw [List.map_map]
        exact List.map_id _
      have bare : ∀ child ∈ (first :: body).map (Tree.leaf : Symbol → Tree V),
          grammar.Bare child := by
        intro child among
        rcases List.mem_map.mp among with ⟨symbol', _, rfl⟩
        exact leaf symbol'
      rw [← spelled] at alternative
      exact branch (List.cons_ne_nil _ _) alternative bare

/-- A child may be replaced by a bare tree of the same symbol. -/
theorem replace {symbol : Symbol} {literal : Option V} {before behind : List (Tree V)}
    {tree tree' : Tree V} (bare : grammar.Bare (.node symbol literal (before ++ tree :: behind)))
    (same : tree'.symbol = tree.symbol) (other : grammar.Bare tree') :
    grammar.Bare (.node symbol literal (before ++ tree' :: behind)) := by
  have siblings : ∀ sibling, sibling ∈ before ∨ sibling ∈ behind → grammar.Bare sibling := by
    intro sibling among
    apply bare.child
    rw [List.mem_append, List.mem_cons]
    exact among.imp_right Or.inr
  generalize children : before ++ tree :: behind = trees at bare
  rcases bare.derived with _ | ⟨_, _, _, spelled, _⟩
  · exact absurd children (by simp)
  · subst children
    apply branch (by simp)
    · rw [List.map_append, List.map_cons] at spelled
      rw [List.map_append, List.map_cons, same]
      exact spelled
    · intro child among
      rcases List.mem_append.mp among with left | right
      · exact siblings child (Or.inl left)
      · rcases List.mem_cons.mp right with rfl | right
        · exact other
        · exact siblings child (Or.inr right)

/-- A rewritten tree keeps its root and stays derived and bare. -/
theorem rewrites {tree rewritten : Tree V} (bare : grammar.Bare tree)
    (member : rewritten ∈ tree.rewrites grammar) :
    rewritten.symbol = tree.symbol ∧ grammar.Bare rewritten := by
  induction tree using Tree.induction generalizing rewritten with
  | leaf symbol literal =>
      have unfilled := bare.unfilled _ (Tree.mem_leaves_leaf.mpr rfl)
      rw [Tree.literal] at unfilled
      subst unfilled
      rcases List.mem_map.mp member with ⟨body, alternative, rfl⟩
      refine ⟨?_, expand alternative⟩
      cases body <;> rfl
  | branch symbol literal child children ih =>
      rcases List.mem_map.mp member with ⟨trees, among, rfl⟩
      rcases mem_forestRewrites.mp among with
        ⟨before, tree, behind, tree', split, rewriting, rfl⟩
      have here : tree ∈ child :: children := by
        rw [split]
        exact List.mem_append_right _ List.mem_cons_self
      have kept := ih tree here (bare.child here) rewriting
      rw [split] at bare
      exact ⟨rfl, bare.replace kept.1 kept.2⟩

end Bare

/-- Every sketch of every level is a sketch of the grammar. -/
theorem isSketch_of_mem_level {count : Nat} {sketch : Tree V}
    (member : sketch ∈ grammar.level count) : grammar.IsSketch sketch := by
  have kept : sketch.symbol = grammar.start ∧ grammar.Bare sketch := by
    induction count generalizing sketch with
    | zero =>
        rw [List.mem_singleton.mp member]
        exact ⟨rfl, Bare.leaf grammar.start⟩
    | succ count ih =>
        rcases List.mem_flatMap.mp member with ⟨earlier, among, rewriting⟩
        have before := ih among
        have after := before.2.rewrites rewriting
        exact ⟨after.1.trans before.1, after.2⟩
  exact ⟨kept.1, kept.2.derived, kept.2.unfilled⟩

theorem isSketch_of_mem_levelsBelow {count : Nat} {sketch : Tree V}
    (member : sketch ∈ grammar.levelsBelow count) : grammar.IsSketch sketch := by
  rcases List.mem_flatMap.mp member with ⟨level, _, among⟩
  exact isSketch_of_mem_level among

/-! ## Every derived tree is reached by rewriting -/

/-- The second tree is reached from the first in a number of rewritings. -/
inductive Rewritten (grammar : Grammar) : Nat → Tree V → Tree V → Prop where
  | refl (tree : Tree V) : Rewritten grammar 0 tree tree
  | tail {count : Nat} {first earlier last : Tree V}
      (steps : Rewritten grammar count first earlier)
      (rewriting : last ∈ earlier.rewrites grammar) :
      Rewritten grammar (count + 1) first last

namespace Rewritten

theorem trans {fewer more : Nat} {first middle last : Tree V}
    (before : grammar.Rewritten fewer first middle)
    (behind : grammar.Rewritten more middle last) :
    grammar.Rewritten (fewer + more) first last := by
  induction behind with
  | refl => exact before
  | tail _ rewriting ih => exact .tail (ih before) rewriting

/-- Rewriting a child, while its siblings stay as they are, rewrites the parent. -/
theorem child {count : Nat} {first last : Tree V} (symbol : Symbol) (literal : Option V)
    (before behind : List (Tree V)) (steps : grammar.Rewritten count first last) :
    grammar.Rewritten count (.node symbol literal (before ++ first :: behind))
      (.node symbol literal (before ++ last :: behind)) := by
  induction steps with
  | refl => exact .refl _
  | @tail count first earlier last _ rewriting ih =>
      apply Rewritten.tail ih
      have among : before ++ last :: behind ∈
          Tree.forestRewrites grammar (before ++ earlier :: behind) :=
        mem_forestRewrites.mpr ⟨before, earlier, behind, last, rfl, rewriting, rfl⟩
      cases split : before ++ earlier :: behind with
      | nil => exact absurd split (by simp)
      | cons head children =>
          rw [split] at among
          exact List.mem_map.mpr ⟨_, among, rfl⟩

/-- Children are rewritten one after another, from left to right. -/
theorem children (symbol : Symbol) (literal : Option V) (before : List (Tree V))
    (trees : List (Tree V))
    (each : ∀ tree ∈ trees,
      grammar.Rewritten tree.innerCount (Tree.leaf tree.symbol) tree.skeleton) :
    grammar.Rewritten (Tree.forestInnerCount trees)
      (.node symbol literal (before ++ trees.map fun tree => Tree.leaf tree.symbol))
      (.node symbol literal (before ++ Tree.forestSkeletons trees)) := by
  induction trees generalizing before with
  | nil => exact .refl _
  | cons tree trees ih =>
      have first := (each tree List.mem_cons_self).child symbol literal before
        (trees.map fun tree => Tree.leaf tree.symbol)
      have others := ih (before ++ [tree.skeleton]) fun tree member =>
        each tree (List.mem_cons_of_mem _ member)
      rw [List.append_assoc, List.append_assoc] at others
      exact first.trans others

/-- The skeleton of a derived tree is reached from its root symbol in as many rewritings
as the tree has inner nodes. -/
theorem skeleton {tree : Tree V} (derived : grammar.Derived tree) :
    grammar.Rewritten tree.innerCount (Tree.leaf tree.symbol) tree.skeleton := by
  induction tree using Tree.induction with
  | leaf symbol literal => exact .refl _
  | branch symbol literal child children ih =>
      rcases derived with _ | ⟨_, _, _, spelled, below⟩
      have root : Tree.node symbol none
            ((child :: children).map fun tree => Tree.leaf tree.symbol) ∈
          (Tree.leaf symbol : Tree V).rewrites grammar := by
        refine List.mem_map.mpr ⟨_, spelled, ?_⟩
        rw [List.map_map]
        rfl
      have expanded : grammar.Rewritten 1 (Tree.leaf symbol : Tree V) _ :=
        .tail (.refl _) root
      have below := Rewritten.children symbol none [] (child :: children) fun tree member =>
        ih tree member (below tree member)
      have both := expanded.trans below
      rw [Nat.add_comm] at both
      exact both

end Rewritten

theorem mem_level_of_rewritten {count : Nat} {sketch : Tree V}
    (steps : grammar.Rewritten count (Tree.leaf grammar.start) sketch) :
    sketch ∈ grammar.level count := by
  generalize source : (Tree.leaf grammar.start : Tree V) = first at steps
  induction steps with
  | refl =>
      rw [← source]
      exact List.mem_singleton_self _
  | tail _ rewriting ih => exact List.mem_flatMap.mpr ⟨_, ih source, rewriting⟩

/-- The skeleton of a derived tree from the start symbol stands in the level of its
number of inner nodes. -/
theorem skeleton_mem_level {tree : Tree V} (root : tree.symbol = grammar.start)
    (derived : grammar.Derived tree) : tree.skeleton ∈ grammar.level tree.innerCount := by
  have steps := Rewritten.skeleton derived
  rw [root] at steps
  exact mem_level_of_rewritten steps

end Grammar
end ProgramSearch
