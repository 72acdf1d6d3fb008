import ProgramSearch.Tree.Revision

namespace ProgramSearch

/-!
# How several trees came about

Trees stand side by side and are named by their numbers.  A step makes a new tree, copies one,
takes a part out of one, or changes the part at a place of one.  What a step appends are copies
of trees that are there, and the tree it changes may be among them.
-/

universe u

/-- One step in the life of several trees.  A tree as a whole is its own part at the empty path. -/
inductive TreeStep (V : Type u) where
  | create (symbol : Symbol)
  | copy (number : Nat)
  | part (number : Nat) (path : List Nat)
  | attach (number : Nat) (place : Tree.Place) (value : V)
  | append (number : Nat) (place : Tree.Place) (added : List Nat)

namespace Tree

variable {V : Type u}

/-- Copies of the trees with the given numbers; a number that names no tree adds nothing. -/
def forestPick (numbers : List Nat) (trees : List (Tree V)) : List (Tree V) :=
  numbers.filterMap fun number => trees[number]?

/-- All trees after one more step. -/
def forestExtend (trees : List (Tree V)) : TreeStep V → List (Tree V)
  | .create symbol => trees ++ [leaf symbol]
  | .copy number => trees ++ trees[number]?.toList
  | .part number path => trees ++ (trees[number]?.bind (descendant? path)).toList
  | .attach number place value => trees.modify number (revised ⟨some value, none⟩ place)
  | .append number place added =>
      trees.modify number (revised ⟨none, some (forestPick added trees)⟩ place)

/-- All trees that a sequence of steps leads to. -/
def forestBuild (steps : List (TreeStep V)) : List (Tree V) :=
  steps.foldl forestExtend []

end Tree

end ProgramSearch
