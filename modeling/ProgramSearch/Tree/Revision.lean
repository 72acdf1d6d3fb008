import ProgramSearch.Tree.Building
import ProgramSearch.Tree.Edit

namespace ProgramSearch
namespace Tree

/-!
# A tree after an edit

An edit goes to the part at a place.  Where the tree has no such part it stays as it is.
-/

universe u

variable {V : Type u}

/-- The tree after an edit of the part at a place. -/
def revised (edit : Edit V) (place : Place) (tree : Tree V) : Tree V :=
  (tree.updatePlace? edit.change place).getD tree

/-- Neither of two paths leads through the node at the other. -/
def Apart (path other : List Nat) : Prop :=
  ¬ path <+: other ∧ ¬ other <+: path

theorem revised_of_updatePlace?_eq_none {edit : Edit V} {place : Place} {tree : Tree V}
    (absent : tree.updatePlace? edit.change place = none) :
    tree.revised edit place = tree := by
  rw [revised, absent, Option.getD_none]

theorem Apart.symm {path other : List Nat} (apart : Apart path other) : Apart other path :=
  ⟨apart.2, apart.1⟩

theorem not_apart_nil (path : List Nat) : ¬ Apart [] path :=
  fun apart => apart.1 List.nil_prefix

theorem apart_cons_iff {index step : Nat} {path other : List Nat} :
    Apart (index :: path) (step :: other) ↔ (index = step → Apart path other) := by
  rw [Apart, Apart, List.cons_prefix_cons, List.cons_prefix_cons, eq_comm (b := index), not_and,
    not_and, imp_and]

end Tree
end ProgramSearch
