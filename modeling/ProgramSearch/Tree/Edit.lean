import ProgramSearch.Tree.Path

namespace ProgramSearch

/-!
# Changes to one node

A change attaches a literal, appends children, or does both, the literal first.
Attaching and appending each keep literals off nodes with children, and so does
every change made of them.
-/

universe u

/-- A literal to attach and children to append, either of which may be missing. -/
structure Edit (V : Type u) where
  literal : Option V
  children : Option (List (Tree V))

namespace Edit

variable {V : Type u}

/-- The node after the change. -/
def change (edit : Edit V) (tree : Tree V) : Tree V :=
  let labelled :=
    match edit.literal with
    | none => tree
    | some value => tree.withLiteral value
  match edit.children with
  | none => labelled
  | some children => labelled.addChildren children

/-- A change keeps the children that are there, and its own come behind them. -/
theorem children_change (edit : Edit V) (tree : Tree V) :
    (edit.change tree).children = tree.children ++ edit.children.getD [] := by
  rcases edit with ⟨_ | value, _ | added⟩
  · exact (List.append_nil _).symm
  · exact Tree.children_addChildren added tree
  · exact (Tree.children_withLiteral value tree).trans (List.append_nil _).symm
  · rw [← Tree.children_withLiteral value tree]
    exact Tree.children_addChildren added _

end Edit

end ProgramSearch
