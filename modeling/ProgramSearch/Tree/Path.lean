import ProgramSearch.Tree.Basic

namespace ProgramSearch
namespace Tree

/-!
# Positions in a tree

A path lists child indices from the root downwards.  `descendant?` reads the
node at a path and `updateAt?` changes it; both answer nothing for a path that
leaves the tree.  The leaf paths list every leaf once, left to right, in the same
order as `leaves`, so that a leaf can be named by its number.
-/

variable {V : Type u}

/-- The node reached by following the path from the root. -/
def descendant? : List Nat → Tree V → Option (Tree V)
  | [], tree => some tree
  | index :: path, tree =>
      match tree.children[index]? with
      | none => none
      | some child => descendant? path child

/-- The tree with the node at the path changed and every other node kept. -/
def updateAt? (change : Tree V → Tree V) : List Nat → Tree V → Option (Tree V)
  | [], tree => some (change tree)
  | index :: path, node symbol literal children =>
      match children[index]? with
      | none => none
      | some child =>
          match updateAt? change path child with
          | none => none
          | some changed => some (node symbol literal (children.set index changed))

mutual

/-- The paths of the leaves that pass a test, left to right. -/
def leafPathsWhere (test : Tree V → Bool) : Tree V → List (List Nat)
  | node symbol literal [] => if test (node symbol literal []) then [[]] else []
  | node _ _ (child :: children) =>
      (leafPathsWhere test child).map (0 :: ·) ++ forestLeafPathsWhere test 1 children

/-- The same for the trees that stand at a node from a given index on. -/
def forestLeafPathsWhere (test : Tree V → Bool) : Nat → List (Tree V) → List (List Nat)
  | _, [] => []
  | index, tree :: trees =>
      (leafPathsWhere test tree).map (index :: ·) ++ forestLeafPathsWhere test (index + 1) trees

end

/-- The paths of all leaves, left to right. -/
def leafPaths (tree : Tree V) : List (List Nat) :=
  tree.leafPathsWhere fun _ => true

/-- The paths of the leaves that the grammar can still expand, left to right. -/
def nonterminalLeafPaths (grammar : Grammar) (tree : Tree V) : List (List Nat) :=
  tree.leafPathsWhere fun leaf => grammar.isNonterminal leaf.symbol

/-- Change the leaf of a given number. -/
def updateLeaf? (change : Tree V → Tree V) (number : Nat) (tree : Tree V) : Option (Tree V) :=
  tree.leafPaths[number]?.bind fun path => tree.updateAt? change path

/-- Change the nonterminal leaf of a given number. -/
def updateNonterminalLeaf? (grammar : Grammar) (change : Tree V → Tree V) (number : Nat)
    (tree : Tree V) : Option (Tree V) :=
  (tree.nonterminalLeafPaths grammar)[number]?.bind fun path => tree.updateAt? change path

end Tree
end ProgramSearch
