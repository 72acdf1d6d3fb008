import Mathlib.Data.Set.Card
import ProgramSearch.Grammar.Lineage
import ProgramSearch.Proofs.Tree.LeafPaths
import ProgramSearch.Proofs.Tree.Locality
import ProgramSearch.Tree.Lookup

namespace ProgramSearch
namespace Tree

/-!
# The paths of a tree

A path resolves when it leads to a node.  The leaf paths are the paths that resolve to a leaf,
in lexicographic order, and a question about leaves has the same answer whether the leaves are
listed or their paths.  Every node has one path, so a tree has as many paths as nodes.
-/

universe u

variable {V : Type u}

/-! ## Paths from a row of children -/

/-- Lists of paths, one for each tree of a row, with the number of its tree before each path. -/
def numbered (list : Tree V → List (List Nat)) : Nat → List (Tree V) → List (List Nat)
  | _, [] => []
  | index, tree :: trees =>
      (list tree).map (index :: ·) ++ numbered list (index + 1) trees

section Numbered

variable {list : Tree V → List (List Nat)}

/-- A path in the row is a path of one tree behind that tree's number. -/
theorem mem_numbered_iff {index : Nat} {trees : List (Tree V)} {path : List Nat} :
    path ∈ numbered list index trees ↔
      ∃ offset tree below, trees[offset]? = some tree ∧ below ∈ list tree ∧
        path = (index + offset) :: below := by
  induction trees generalizing index with
  | nil => simp [numbered]
  | cons tree trees ih =>
      rw [numbered, List.mem_append, List.mem_map, ih]
      constructor
      · rintro (⟨below, member, rfl⟩ | ⟨offset, other, below, present, member, rfl⟩)
        · exact ⟨0, tree, below, rfl, member, rfl⟩
        · exact ⟨offset + 1, other, below, present, member, by rw [Nat.add_right_comm]; rfl⟩
      · rintro ⟨offset, other, below, present, member, rfl⟩
        cases offset with
        | zero =>
            cases present
            exact .inl ⟨below, member, rfl⟩
        | succ offset =>
            exact .inr ⟨offset, other, below, present, member, by rw [Nat.add_right_comm]; rfl⟩

/-- A row of increasing lists is increasing. -/
theorem pairwise_numbered {trees : List (Tree V)}
    (each : ∀ tree ∈ trees, (list tree).Pairwise (· < ·)) (index : Nat) :
    (numbered list index trees).Pairwise (· < ·) := by
  induction trees generalizing index with
  | nil => exact .nil
  | cons tree trees ih =>
      rw [numbered, List.pairwise_append]
      refine ⟨?_, ih (fun tree member => each tree (List.mem_cons_of_mem _ member)) _, ?_⟩
      · rw [List.pairwise_map]
        exact (each tree List.mem_cons_self).imp fun less =>
          List.cons_lt_cons_iff.mpr (.inr ⟨rfl, less⟩)
      · intro first member second later
        rcases List.mem_map.mp member with ⟨below, _, rfl⟩
        rcases mem_numbered_iff.mp later with ⟨offset, other, below', _, _, rfl⟩
        exact List.cons_lt_cons_iff.mpr (.inl (by omega))

theorem forestLeafPathsWhere_eq_numbered (test : Tree V → Bool) (index : Nat)
    (trees : List (Tree V)) :
    forestLeafPathsWhere test index trees = numbered (leafPathsWhere test) index trees := by
  induction trees generalizing index with
  | nil => rfl
  | cons tree trees ih => rw [forestLeafPathsWhere, numbered, ih]

end Numbered

/-! ## Leaf paths are the paths of leaves -/

section LeafPaths

variable {test : Tree V → Bool}

/-- The paths listed for a test are those that lead to a leaf that passes it. -/
theorem mem_leafPathsWhere_iff {tree : Tree V} {path : List Nat} :
    path ∈ tree.leafPathsWhere test ↔
      ∃ leaf, tree.descendant? path = some leaf ∧ leaf.children = [] ∧ test leaf = true := by
  induction tree using Tree.induction generalizing path with
  | leaf symbol literal =>
      rw [leafPathsWhere]
      cases path with
      | nil => by_cases passes : test (node symbol literal []) <;>
          simp [passes, descendant?, Tree.children]
      | cons index path => by_cases passes : test (node symbol literal []) <;>
          simp [passes, descendant?_cons, Tree.children]
  | branch symbol literal child children ih =>
      rw [leafPathsWhere_node_cons, forestLeafPathsWhere_eq_numbered, mem_numbered_iff]
      cases path with
      | nil => simp [descendant?, Tree.children]
      | cons index path =>
          simp only [descendant?_cons, Tree.children, Option.bind_eq_some_iff]
          constructor
          · rintro ⟨offset, tree, below, present, member, same⟩
            rw [Nat.zero_add] at same
            cases same
            rcases (ih tree (List.mem_of_getElem? present)).mp member with ⟨leaf, leads, rest⟩
            exact ⟨leaf, ⟨tree, present, leads⟩, rest⟩
          · rintro ⟨leaf, ⟨tree, present, leads⟩, rest⟩
            have member := (ih tree (List.mem_of_getElem? present)).mpr ⟨leaf, leads, rest⟩
            exact ⟨index, tree, path, present, member, by rw [Nat.zero_add]⟩

theorem TurnsLeft.lt {path other : List Nat} (part : TurnsLeft path other) : path < other := by
  induction part with
  | here less path other => exact List.cons_lt_cons_iff.mpr (.inl less)
  | inside index _ ih => exact List.cons_lt_cons_iff.mpr (.inr ⟨rfl, ih⟩)

theorem TurnsLeft.apart {path other : List Nat} (part : TurnsLeft path other) :
    Apart path other := by
  induction part with
  | here less path other => exact apart_cons_iff.mpr fun same => absurd same (Nat.ne_of_lt less)
  | inside index _ ih => exact apart_cons_iff.mpr fun _ => ih

private theorem forestLeafPathsWhere_eq_filter {trees : List (Tree V)}
    (each : ∀ tree ∈ trees, tree.leafPathsWhere test =
      ((tree.leafPaths.zip tree.leaves).filter fun entry => test entry.2).map Prod.fst)
    (index : Nat) :
    forestLeafPathsWhere test index trees =
      (((forestLeafPathsWhere (fun _ => true) index trees).zip (trees.flatMap leaves)).filter
        fun entry => test entry.2).map Prod.fst := by
  induction trees generalizing index with
  | nil => rfl
  | cons tree trees ih =>
      have others := ih (fun tree member => each tree (List.mem_cons_of_mem _ member)) (index + 1)
      have lengths : (tree.leafPaths.map (index :: ·)).length = tree.leaves.length := by
        rw [List.length_map, tree.forall₂_leafPaths.length_eq]
      have first : (tree.leafPathsWhere test).map (index :: ·) =
          ((((tree.leafPaths.map (index :: ·)).zip tree.leaves).filter
            fun entry => test entry.2).map Prod.fst) := by
        rw [each tree List.mem_cons_self, List.zip_map_left, List.filter_map, List.map_map,
          List.map_map]
        rfl
      rw [leafPaths] at first lengths
      rw [forestLeafPathsWhere, first, others, forestLeafPathsWhere, List.flatMap_cons,
        List.zip_append lengths, List.filter_append, List.map_append]

/-- The paths listed for a test are picked from all leaf paths by the leaves of the same
numbers. -/
theorem leafPathsWhere_eq_filter (test : Tree V → Bool) (tree : Tree V) :
    tree.leafPathsWhere test =
      ((tree.leafPaths.zip tree.leaves).filter fun entry => test entry.2).map Prod.fst := by
  induction tree using Tree.induction with
  | leaf symbol literal =>
      by_cases passes : test (node symbol literal []) = true <;>
        simp [leafPaths, leafPathsWhere, leaves, passes]
  | branch symbol literal child children ih =>
      rw [leafPaths, leafPathsWhere_node_cons, leafPathsWhere_node_cons, leaves_node_cons]
      exact forestLeafPathsWhere_eq_filter ih 0

/-- Resolving the paths listed for a test gives the leaves that pass it. -/
theorem map_descendant?_leafPathsWhere (test : Tree V → Bool) (tree : Tree V) :
    (tree.leafPathsWhere test).map (fun path => tree.descendant? path) =
      (tree.leaves.filter test).map some := by
  have each := tree.forall₂_leafPathsWhere test
  rw [← List.forall₂_eq_eq_eq, List.forall₂_map_left_iff, List.forall₂_map_right_iff]
  exact each

end LeafPaths

/-! ## Every node has one path -/

mutual

/-- The paths of all nodes, from the root downwards and from left to right. -/
def paths : Tree V → List (List Nat)
  | node _ _ children => [] :: forestPaths 0 children

/-- The same for the trees that stand at a node from a given index on. -/
def forestPaths : Nat → List (Tree V) → List (List Nat)
  | _, [] => []
  | index, tree :: trees => tree.paths.map (index :: ·) ++ forestPaths (index + 1) trees

end

theorem forestPaths_eq_numbered (index : Nat) (trees : List (Tree V)) :
    forestPaths index trees = numbered paths index trees := by
  induction trees generalizing index with
  | nil => rfl
  | cons tree trees ih => rw [forestPaths, numbered, ih]

theorem paths_node (symbol : Symbol) (literal : Option V) (children : List (Tree V)) :
    (node symbol literal children).paths = [] :: numbered paths 0 children := by
  rw [paths, forestPaths_eq_numbered]

theorem mem_paths_iff {tree : Tree V} {path : List Nat} :
    path ∈ tree.paths ↔ (tree.descendant? path).isSome := by
  induction path generalizing tree with
  | nil =>
      rcases tree with ⟨symbol, literal, children⟩
      simp [paths_node, descendant?]
  | cons index path ih =>
      rcases tree with ⟨symbol, literal, children⟩
      rw [paths_node, List.mem_cons, mem_numbered_iff, descendant?_cons, Tree.children]
      constructor
      · rintro (impossible | ⟨offset, tree, below, present, member, same⟩)
        · cases impossible
        · rw [Nat.zero_add] at same
          cases same
          rw [present, Option.bind_some]
          exact ih.mp member
      · intro resolves
        cases present : children[index]? with
        | none =>
            rw [present] at resolves
            cases resolves
        | some tree =>
            rw [present, Option.bind_some] at resolves
            exact .inr ⟨index, tree, path, present, ih.mpr resolves, by rw [Nat.zero_add]⟩

theorem pairwise_paths (tree : Tree V) : tree.paths.Pairwise (· < ·) := by
  induction tree using induction_children with
  | inherit symbol literal children ih =>
      rw [paths_node, List.pairwise_cons]
      refine ⟨?_, pairwise_numbered ih 0⟩
      intro path member
      rcases mem_numbered_iff.mp member with ⟨offset, tree, below, _, _, rfl⟩
      exact List.nil_lt_cons _ _

theorem length_paths (tree : Tree V) : tree.paths.length = tree.size := by
  induction tree using induction_children with
  | inherit symbol literal children ih =>
      have row : ∀ (trees : List (Tree V)), (∀ tree ∈ trees, tree.paths.length = tree.size) →
          ∀ index, (numbered paths index trees).length = forestSize trees := by
        intro trees each
        induction trees with
        | nil => exact fun _ => rfl
        | cons tree trees ih =>
            intro index
            have others := ih fun other member => each other (List.mem_cons_of_mem _ member)
            rw [numbered, List.length_append, List.length_map, each tree List.mem_cons_self,
              others, forestSize]
      rw [paths_node, List.length_cons, row children ih, size, Nat.add_comm]

/-- A tree has as many nodes as paths that resolve. -/
theorem encard_setOf_isSome_descendant? (tree : Tree V) :
    {path | (tree.descendant? path).isSome}.encard = tree.size := by
  have listed : {path | (tree.descendant? path).isSome} =
      (tree.paths.toFinset : Set (List Nat)) := by
    ext path
    rw [Set.mem_ofPred_eq, List.coe_toFinset, Set.mem_ofPred_eq, mem_paths_iff]
  have once : tree.paths.Nodup := by
    apply tree.pairwise_paths.imp
    rintro path other less rfl
    exact List.lt_irrefl path less
  rw [listed, Set.encard_coe_eq_coe_finsetCard, List.toFinset_card_of_nodup once, length_paths]

/-! ## Leaves and their paths -/

/-- The lists of leaves and of leaf paths of a tree answer alike. -/
structure PathsAgree (tree : Tree V) : Prop where
  /-- The leaf paths are the paths that lead to a leaf. -/
  mem_iff : ∀ path, path ∈ tree.leafPaths ↔
    ∃ leaf, tree.descendant? path = some leaf ∧ leaf.isLeaf = true
  /-- They are listed once each. -/
  once : tree.leafPaths.Nodup
  /-- They are listed in lexicographic order. -/
  increasing : tree.leafPaths.Pairwise (· < ·)
  /-- None of them leads through another. -/
  apart : tree.leafPaths.Pairwise Apart
  /-- As many leaf paths as leaves are listed, and each leads to the leaf of its number. -/
  resolved : tree.leafPaths.map (fun path => tree.descendant? path) = tree.leaves.map some
  /-- As many paths resolve as the tree has nodes. -/
  counted : {path | (tree.descendant? path).isSome}.encard = tree.size

theorem pathsAgree (tree : Tree V) : tree.PathsAgree where
  mem_iff path := by
    simp only [leafPaths, mem_leafPathsWhere_iff, and_true, isLeaf, List.isEmpty_iff]
  once := tree.nodup_leafPaths
  increasing := (tree.pairwise_leafPathsWhere _).imp TurnsLeft.lt
  apart := (tree.pairwise_leafPathsWhere _).imp TurnsLeft.apart
  resolved := by
    rw [leafPaths, map_descendant?_leafPathsWhere, List.filter_true]
  counted := tree.encard_setOf_isSome_descendant?

/-- What a grammar answers about the leaves of a tree and about their paths. -/
structure NonterminalPathsAgree (grammar : Grammar) (tree : Tree V) : Prop where
  /-- The nonterminal leaves are those of the leaves that can still be expanded. -/
  leaves : tree.nonterminalLeaves? grammar =
    some (tree.leaves.filter fun leaf => grammar.isNonterminal leaf.symbol)
  /-- The nonterminal leaf paths are the leaf paths at the positions of nonterminal leaves. -/
  picked : tree.nonterminalLeafPaths? grammar =
    some (((tree.leafPaths.zip tree.leaves).filter
      fun entry => grammar.isNonterminal entry.2.symbol).map Prod.fst)
  /-- They lead to the nonterminal leaves in order. -/
  resolved : (tree.nonterminalLeafPaths? grammar).map
      (List.map fun path => tree.descendant? path) =
    (tree.nonterminalLeaves? grammar).map (List.map some)

/-- Leaves and leaf paths agree on every tree, and so do those that can still be expanded,
whatever grammar tells which these are.  The grammar has to admit the symbols of all leaves. -/
theorem leaves_agree_with_paths (tree : Tree V) :
    tree.PathsAgree ∧
      ∀ grammar : Grammar, (∀ leaf ∈ tree.leaves, grammar.Admits leaf.symbol) →
        tree.NonterminalPathsAgree grammar := by
  refine ⟨tree.pathsAgree, fun grammar admits => ?_⟩
  have leaves : tree.nonterminalLeaves? grammar = some (tree.nonterminalLeaves grammar) :=
    askLeaves?_of_admits admits _
  have paths : tree.nonterminalLeafPaths? grammar = some (tree.nonterminalLeafPaths grammar) :=
    askLeaves?_of_admits admits _
  constructor
  case leaves => exact leaves
  case picked => rw [paths, nonterminalLeafPaths, leafPathsWhere_eq_filter]
  case resolved =>
    rw [leaves, paths, Option.map_some, Option.map_some, nonterminalLeafPaths,
      map_descendant?_leafPathsWhere]
    rfl

/-- A terminal with its literal stands before a symbol that is still to be expanded. -/
def halfExpanded : Tree Nat :=
  node ⟨0, 0⟩ none [node ⟨0, 1⟩ (some 4) [], leaf ⟨0, 0⟩]

/-- A grammar of its two symbols. -/
def unruled : Grammar :=
  .build 0 "e" [.symbol "c"]

theorem admits_halfExpanded :
    ∀ leaf ∈ halfExpanded.leaves, unruled.Admits leaf.symbol := by decide

theorem leaves_agree_with_paths_halfExpanded :
    (∀ leaf ∈ halfExpanded.leaves, unruled.Admits leaf.symbol) ∧
      halfExpanded.nonterminalLeafPaths? unruled = some [[1]] := by
  have agree := (leaves_agree_with_paths halfExpanded).2 unruled admits_halfExpanded
  exact ⟨admits_halfExpanded, agree.picked.trans (by decide)⟩

/-- A copy tells nothing of a leaf with a symbol that its original has minted since. -/
theorem leafPaths_overtaken_break_off :
    (leaf ⟨0, 2⟩ : Tree Int64).leafPaths = [[]] ∧
      (leaf ⟨0, 2⟩ : Tree Int64).nonterminalLeafPaths? Grammar.overtaken = none ∧
      (leaf ⟨0, 2⟩ : Tree Int64).nonterminalLeaves? Grammar.overtaken = none := by
  refine ⟨by decide, ?_, ?_⟩ <;>
    exact askLeaves?_eq_none (List.mem_singleton.mpr rfl) (by decide) (by decide) _

end Tree
end ProgramSearch
