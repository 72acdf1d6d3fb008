import Mathlib.Data.List.Basic
import ProgramSearch.Proofs.Tree.Building
import ProgramSearch.Tree.Revision

namespace ProgramSearch
namespace Tree

/-!
# Edits stay where they are made

An edit reaches the node at its path and nothing beside it.  The nodes above keep what they
show, the nodes below keep their places, since new children come behind the old ones, and
edits at two paths of which neither leads through the other can be made in either order.
-/

universe u

variable {V : Type u}

/-! ## Following a path -/

theorem descendant?_cons (index : Nat) (path : List Nat) (tree : Tree V) :
    tree.descendant? (index :: path) = tree.children[index]?.bind (descendant? path) := by
  rw [descendant?]
  cases tree.children[index]? <;> rfl

/-- A path is followed piece by piece. -/
theorem descendant?_append (path below : List Nat) (tree : Tree V) :
    tree.descendant? (path ++ below) = (tree.descendant? path).bind (descendant? below) := by
  induction path generalizing tree with
  | nil => rfl
  | cons index path ih =>
      rw [List.cons_append, descendant?_cons, descendant?_cons, Option.bind_assoc]
      exact congrArg _ (funext ih)

/-- A node can be changed exactly when it is there. -/
theorem isSome_updateAt?_iff (change : Tree V → Tree V) {path : List Nat} {tree : Tree V} :
    (tree.updateAt? change path).isSome ↔ (tree.descendant? path).isSome := by
  rw [Option.isSome_iff_exists, Option.isSome_iff_exists]
  constructor
  · rintro ⟨changed, updated⟩
    rcases exists_part_of_updateAt? updated with ⟨part, there, _⟩
    exact ⟨part, there⟩
  · rintro ⟨part, there⟩
    exact exists_updateAt? change there

/-! ## One child among others -/

section Revision

variable (edit : Edit V) (path : List Nat)

theorem revised_nil (tree : Tree V) : tree.revised edit (.path []) = edit.change tree := rfl

/-- An edit below the root is an edit of the child that the path names first, if it is there. -/
theorem revised_cons (index : Nat) (symbol : Symbol) (literal : Option V)
    (children : List (Tree V)) :
    (node symbol literal children).revised edit (.path (index :: path)) =
      node symbol literal (children.modify index (revised edit (.path path))) := by
  cases present : children[index]? with
  | none =>
      have beyond : children.length ≤ index := List.getElem?_eq_none_iff.mp present
      rw [List.modify_eq_self beyond]
      simp only [revised, updatePlace?, updateAt?, present, Option.getD_none]
  | some child =>
      rcases List.getElem?_eq_some_iff.mp present with ⟨within, rfl⟩
      rw [List.modify_eq_set_get _ within, List.get_eq_getElem]
      simp only [revised, updatePlace?, updateAt?, present]
      cases children[index].updateAt? edit.change path with
      | none => rw [Option.getD_none, Option.getD_none, List.set_getElem_self]
      | some changed => rfl

theorem children_revised_cons (index : Nat) (tree : Tree V) :
    (tree.revised edit (.path (index :: path))).children =
      tree.children.modify index (revised edit (.path path)) := by
  cases tree
  rw [revised_cons]
  rfl

end Revision

/-! ## What an edit leaves alone -/

section Frame

variable (edit : Edit V) {path other : List Nat} (tree : Tree V)

theorem revised_of_absent (absent : tree.descendant? path = none) :
    tree.revised edit (.path path) = tree := by
  apply revised_of_updatePlace?_eq_none
  rw [updatePlace?, ← Option.not_isSome_iff_eq_none, isSome_updateAt?_iff, absent]
  exact Bool.false_ne_true

/-- The edited node is found where the old one was. -/
theorem descendant?_revised_self (path : List Nat) :
    (tree.revised edit (.path path)).descendant? path =
      (tree.descendant? path).map edit.change := by
  induction path generalizing tree with
  | nil => rfl
  | cons index path ih =>
      rw [descendant?_cons, descendant?_cons, children_revised_cons, List.getElem?_modify_eq]
      cases tree.children[index]? with
      | none => rfl
      | some child => exact ih child

/-- An edit is not seen from a path apart. -/
theorem descendant?_revised_of_apart (apart : Apart path other) :
    (tree.revised edit (.path path)).descendant? other = tree.descendant? other := by
  induction path generalizing tree other with
  | nil => exact absurd apart (not_apart_nil other)
  | cons index path ih =>
      cases other with
      | nil => exact absurd apart.symm (not_apart_nil _)
      | cons step other =>
          rw [descendant?_cons, descendant?_cons, children_revised_cons]
          by_cases here : index = step
          · subst here
            rw [List.getElem?_modify_eq]
            cases tree.children[index]? with
            | none => rfl
            | some child => exact ih child (apart_cons_iff.mp apart rfl)
          · rw [List.getElem?_modify_ne _ _ here]

/-- A node above the edited one keeps its symbol, its literal and the number of its children. -/
theorem descendant?_revised_above (before : other <+: path) (proper : other ≠ path) :
    ((tree.revised edit (.path path)).descendant? other).map frame =
        (tree.descendant? other).map frame ∧
      ((tree.revised edit (.path path)).descendant? other).map Tree.literal =
        (tree.descendant? other).map Tree.literal := by
  induction path generalizing tree other with
  | nil => exact absurd (List.prefix_nil.mp before) proper
  | cons index path ih =>
      cases other with
      | nil =>
          rcases tree with ⟨symbol, literal, children⟩
          rw [revised_cons]
          simp [descendant?, frame, Tree.symbol, Tree.children, Tree.literal]
      | cons step other =>
          rcases List.cons_prefix_cons.mp before with ⟨rfl, further⟩
          rw [descendant?_cons, descendant?_cons, children_revised_cons, List.getElem?_modify_eq]
          cases tree.children[step]? with
          | none => exact ⟨rfl, rfl⟩
          | some child => exact ih child further fun same => proper (by rw [same])

/-- A node below the edited one stays where it is. -/
theorem descendant?_revised_below (behind : path <+: other) (proper : other ≠ path) {part : Tree V}
    (there : tree.descendant? other = some part) :
    (tree.revised edit (.path path)).descendant? other = some part := by
  rcases behind with ⟨below, rfl⟩
  rw [descendant?_append] at there ⊢
  rcases Option.bind_eq_some_iff.mp there with ⟨found, here, under⟩
  rw [descendant?_revised_self, here, Option.map_some, Option.bind_some]
  cases below with
  | nil => exact absurd (List.append_nil path) proper
  | cons index below =>
      rw [descendant?_cons] at under ⊢
      rcases Option.bind_eq_some_iff.mp under with ⟨child, present, deeper⟩
      have within : index < found.children.length := (List.getElem?_eq_some_iff.mp present).1
      rw [Edit.children_change, List.getElem?_append_left within, present]
      exact deeper

/-- Edits at paths apart can be made in either order. -/
theorem revised_comm (edit' : Edit V) (apart : Apart path other) :
    (tree.revised edit (.path path)).revised edit' (.path other) =
      (tree.revised edit' (.path other)).revised edit (.path path) := by
  induction path generalizing tree other with
  | nil => exact absurd apart (not_apart_nil other)
  | cons index path ih =>
      cases other with
      | nil => exact absurd apart.symm (not_apart_nil _)
      | cons step other =>
          rcases tree with ⟨symbol, literal, children⟩
          rw [revised_cons, revised_cons, revised_cons, revised_cons]
          congr 1
          by_cases here : index = step
          · -- both edits are made below one child
            subst here
            rw [List.modify_modify_eq, List.modify_modify_eq]
            exact congrArg (children.modify index)
              (funext fun child => ih child (apart_cons_iff.mp apart rfl))
          · exact List.modify_modify_ne _ _ _ here

end Frame

/-! ## Edits by path -/

/-- What an edit at a path does to a tree and what it leaves alone. -/
structure KeptLocal (edit : Edit V) (path : List Nat) (tree : Tree V) : Prop where
  /-- The edit finds a node exactly when the path leads to one. -/
  found_iff : (tree.updatePlace? edit.change (.path path)).isSome ↔
    (tree.descendant? path).isSome
  /-- Without a node at the path nothing happens. -/
  absent : tree.descendant? path = none → tree.revised edit (.path path) = tree
  /-- The node at the path is changed, and it is there afterwards if it was before. -/
  self : (tree.revised edit (.path path)).descendant? path =
    (tree.descendant? path).map edit.change
  /-- A path apart leads to what it led to before, or to nothing as before. -/
  apart : ∀ other, Apart path other →
    (tree.revised edit (.path path)).descendant? other = tree.descendant? other
  /-- A node above keeps its symbol, its literal and the number of its children. -/
  above : ∀ other, other <+: path → other ≠ path →
    ((tree.revised edit (.path path)).descendant? other).map frame =
        (tree.descendant? other).map frame ∧
      ((tree.revised edit (.path path)).descendant? other).map Tree.literal =
        (tree.descendant? other).map Tree.literal
  /-- A node below is the same, with all that is under it. -/
  below : ∀ other part, path <+: other → other ≠ path → tree.descendant? other = some part →
    (tree.revised edit (.path path)).descendant? other = some part
  /-- Another edit at a path apart can be made before or after, and finds its node or not
  either way. -/
  commutes : ∀ (edit' : Edit V) (other : List Nat), Apart path other →
    (tree.revised edit (.path path)).revised edit' (.path other) =
        (tree.revised edit' (.path other)).revised edit (.path path) ∧
      ((tree.revised edit (.path path)).updatePlace? edit'.change (.path other)).isSome =
        (tree.updatePlace? edit'.change (.path other)).isSome

/-- Whatever the tree, the path and the edit, nothing but the node at the path is changed. -/
theorem edits_stay_local (edit : Edit V) (path : List Nat) (tree : Tree V) :
    tree.KeptLocal edit path where
  found_iff := isSome_updateAt?_iff edit.change
  absent := tree.revised_of_absent edit
  self := tree.descendant?_revised_self edit path
  apart _ apart := tree.descendant?_revised_of_apart edit apart
  above _ before proper := tree.descendant?_revised_above edit before proper
  below _ _ behind proper there := tree.descendant?_revised_below edit behind proper there
  commutes edit' other apart := by
    refine ⟨tree.revised_comm edit edit' apart, ?_⟩
    apply Bool.eq_iff_iff.mpr
    calc
      ((tree.revised edit (.path path)).updateAt? edit'.change other).isSome ↔
          ((tree.revised edit (.path path)).descendant? other).isSome :=
        isSome_updateAt?_iff edit'.change
      _ ↔ (tree.descendant? other).isSome := by rw [tree.descendant?_revised_of_apart edit apart]
      _ ↔ (tree.updateAt? edit'.change other).isSome := (isSome_updateAt?_iff edit'.change).symm

end Tree
end ProgramSearch
