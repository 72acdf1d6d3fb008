import ProgramSearch.Proofs.Tree.Children

namespace ProgramSearch
namespace Tree

/-!
# Changing one label

A change that keeps a node's symbol and children changes the label of one node only.  Every
other node keeps its literal, and all paths lead to nodes of the same symbols and with as many
children as before.  A tree is known once the labels at all its paths are known.
-/

universe u

variable {V : Type u}

/-- A change of a node's literal at most. -/
def KeepsFrame (change : Tree V → Tree V) : Prop :=
  ∀ tree, (change tree).symbol = tree.symbol ∧ (change tree).children = tree.children

theorem keepsFrame_withLiteral (value : V) : KeepsFrame (withLiteral value) := by
  rintro ⟨symbol, literal, children⟩
  cases children <;> exact ⟨rfl, rfl⟩

/-- A node that is there can be changed. -/
theorem exists_updateAt? (change : Tree V → Tree V) {path : List Nat} {tree found : Tree V}
    (there : tree.descendant? path = some found) :
    ∃ changed, tree.updateAt? change path = some changed := by
  induction path generalizing tree with
  | nil => exact ⟨_, rfl⟩
  | cons index path ih =>
      rcases tree with ⟨symbol, literal, children⟩
      rcases descendant?_cons_eq_some_iff.mp there with ⟨child, present, below⟩
      rcases ih below with ⟨changed, updated⟩
      rw [updateAt?, present]
      simp only [updated]
      exact ⟨_, rfl⟩

section Update

variable {change : Tree V → Tree V} {path : List Nat} {tree changed : Tree V}

/-- A change below the root replaces one child. -/
theorem exists_child_of_updateAt? {index : Nat} {symbol : Symbol} {literal : Option V}
    {children : List (Tree V)}
    (updated : (node symbol literal children).updateAt? change (index :: path) = some changed) :
    ∃ child later, children[index]? = some child ∧ child.updateAt? change path = some later ∧
      changed = node symbol literal (children.set index later) := by
  rw [updateAt?] at updated
  cases present : children[index]? with
  | none =>
      rw [present] at updated
      cases updated
  | some child =>
      rw [present] at updated
      cases below : child.updateAt? change path with
      | none =>
          simp only [below] at updated
          cases updated
      | some later =>
          simp only [below] at updated
          cases updated
          exact ⟨child, later, rfl, below, rfl⟩

/-- The changed node is found where the old one was. -/
theorem descendant?_updateAt?_self (updated : tree.updateAt? change path = some changed) :
    changed.descendant? path = (tree.descendant? path).map change := by
  induction path generalizing tree changed with
  | nil =>
      cases updated
      rfl
  | cons index path ih =>
      rcases tree with ⟨symbol, literal, children⟩
      rcases exists_child_of_updateAt? updated with ⟨child, later, present, below, rfl⟩
      have within : index < children.length := (List.getElem?_eq_some_iff.mp present).1
      simp only [descendant?, Tree.children, List.getElem?_set_self within, present]
      exact ih below

/-- A change that keeps frames leaves the symbol and the number of children at every path, and
the literal at every other path. -/
theorem descendant?_updateAt?_of_keepsFrame (keeps : KeepsFrame change)
    (updated : tree.updateAt? change path = some changed) (other : List Nat) :
    (changed.descendant? other).map frame = (tree.descendant? other).map frame ∧
      (other ≠ path →
        (changed.descendant? other).map Tree.literal =
          (tree.descendant? other).map Tree.literal) := by
  induction path generalizing tree changed other with
  | nil =>
      cases updated
      cases other with
      | nil =>
          refine ⟨?_, fun different => absurd rfl different⟩
          simp only [descendant?, Option.map_some, frame, keeps tree]
      | cons step other =>
          simp only [descendant?, keeps tree]
          exact ⟨trivial, fun _ => trivial⟩
  | cons index path ih =>
      rcases tree with ⟨symbol, literal, children⟩
      rcases exists_child_of_updateAt? updated with ⟨child, later, present, below, rfl⟩
      cases other with
      | nil => simp [descendant?, frame, Tree.symbol, Tree.children, Tree.literal]
      | cons step other =>
          by_cases here : index = step
          · subst here
            have within : index < children.length := (List.getElem?_eq_some_iff.mp present).1
            simp only [descendant?, Tree.children, List.getElem?_set_self within, present]
            rcases ih below other with ⟨frames, literals⟩
            exact ⟨frames, fun different => literals fun same => different (by rw [same])⟩
          · simp only [descendant?, Tree.children, List.getElem?_set_ne here]
            exact ⟨trivial, fun _ => trivial⟩

end Update

/-- Two trees with the same symbols, literals and numbers of children at all paths are the same
tree. -/
theorem eq_of_descendant? {left right : Tree V}
    (frames : ∀ path, (left.descendant? path).map frame = (right.descendant? path).map frame)
    (literals : ∀ path,
      (left.descendant? path).map Tree.literal = (right.descendant? path).map Tree.literal) :
    left = right := by
  induction left using Tree.induction generalizing right with
  | leaf symbol literal =>
      rcases right with ⟨symbol', literal', children'⟩
      have root := frames []
      have carried := literals []
      simp only [descendant?, Option.map_some, frame, Tree.symbol, Tree.children, Tree.literal,
        Option.some.injEq, Prod.mk.injEq] at root carried
      rw [root.1, carried, List.length_eq_zero_iff.mp root.2.symm]
  | branch symbol literal child children ih =>
      rcases right with ⟨symbol', literal', children'⟩
      have root := frames []
      have carried := literals []
      simp only [descendant?, Option.map_some, frame, Tree.symbol, Tree.children, Tree.literal,
        Option.some.injEq, Prod.mk.injEq] at root carried
      have same : child :: children = children' := by
        apply List.ext_getElem root.2
        intro index within within'
        apply ih _ (List.getElem_mem within)
        · intro path
          simpa [descendant?, Tree.children, List.getElem?_eq_getElem within,
            List.getElem?_eq_getElem within'] using frames (index :: path)
        · intro path
          simpa [descendant?, Tree.children, List.getElem?_eq_getElem within,
            List.getElem?_eq_getElem within'] using literals (index :: path)
      rw [root.1, carried, same]

end Tree
end ProgramSearch
