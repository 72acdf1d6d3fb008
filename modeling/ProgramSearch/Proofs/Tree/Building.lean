import ProgramSearch.Proofs.Tree.Relabelling
import ProgramSearch.Tree.Building
import ProgramSearch.Tree.Edit

namespace ProgramSearch
namespace Tree

/-!
# What can be built

A tree can be built exactly when only its leaves carry literals.  No operation breaks this
rule, and a tree that obeys it is built from its leaves upwards.
-/

universe u

variable {V : Type u} {tree : Tree V}

/-! ## Parts -/

theorem everywhere_node {property : Tree V → Prop} {symbol : Symbol} {literal : Option V}
    {children : List (Tree V)} :
    (node symbol literal children).Everywhere property ↔
      property (node symbol literal children) ∧
        ∀ child ∈ children, child.Everywhere property := by
  constructor
  · intro everywhere
    refine ⟨everywhere [] _ rfl, ?_⟩
    intro child member path part there
    rcases List.mem_iff_getElem?.mp member with ⟨index, found⟩
    exact everywhere (index :: path) part (descendant?_cons_eq_some_iff.mpr ⟨child, found, there⟩)
  · rintro ⟨here, below⟩ path part there
    cases path with
    | nil =>
        cases there
        exact here
    | cons index path =>
        rcases descendant?_cons_eq_some_iff.mp there with ⟨child, found, under⟩
        exact below child (List.mem_of_getElem? found) path part under

section Update

variable {change : Tree V → Tree V} {result : Tree V}

/-- Whatever the place is, the part has a path. -/
theorem exists_path_of_updatePlace? {place : Place}
    (updated : tree.updatePlace? change place = some result) :
    ∃ path, tree.updateAt? change path = some result := by
  cases place with
  | path path => exact ⟨path, updated⟩
  | leaf number =>
      rcases Option.bind_eq_some_iff.mp updated with ⟨path, _, changed⟩
      exact ⟨path, changed⟩
  | nonterminalLeaf grammar number =>
      rcases Option.bind_eq_some_iff.mp updated with ⟨path, _, changed⟩
      exact ⟨path, changed⟩

/-- A change of a part replaces it by what it becomes. -/
theorem exists_part_of_updateAt? {path : List Nat}
    (updated : tree.updateAt? change path = some result) :
    ∃ part, tree.descendant? path = some part ∧
      tree.updateAt? (fun _ => change part) path = some result := by
  induction path generalizing tree result with
  | nil => exact ⟨tree, rfl, updated⟩
  | cons index path ih =>
      rcases tree with ⟨symbol, literal, children⟩
      rcases exists_child_of_updateAt? updated with ⟨child, later, found, below, rfl⟩
      rcases ih below with ⟨part, there, replaced⟩
      refine ⟨part, descendant?_cons_eq_some_iff.mpr ⟨child, found, there⟩, ?_⟩
      rw [updateAt?, found]
      simp only [replaced]

end Update

/-! ## Only leaves carry literals -/

theorem forestLiteralsOnLeaves_iff {trees : List (Tree V)} :
    forestLiteralsOnLeaves trees = true ↔ ∀ tree ∈ trees, tree.literalsOnLeaves = true := by
  induction trees with
  | nil => simp [forestLiteralsOnLeaves]
  | cons tree trees ih => rw [forestLiteralsOnLeaves, Bool.and_eq_true, ih, List.forall_mem_cons]

theorem literalsOnLeaves_node {symbol : Symbol} {literal : Option V} {children : List (Tree V)} :
    (node symbol literal children).literalsOnLeaves = true ↔
      (children ≠ [] → literal = none) ∧
        ∀ child ∈ children, child.literalsOnLeaves = true := by
  cases children with
  | nil => simp [literalsOnLeaves]
  | cons child children =>
      rw [literalsOnLeaves, Bool.and_eq_true, Bool.and_eq_true, Option.isNone_iff_eq_none,
        forestLiteralsOnLeaves_iff, List.forall_mem_cons, and_assoc]
      simp

/-- A part obeys the rule that the whole tree obeys. -/
theorem literalsOnLeaves_of_descendant? {path : List Nat} {part : Tree V}
    (rule : tree.literalsOnLeaves = true) (there : tree.descendant? path = some part) :
    part.literalsOnLeaves = true := by
  induction path generalizing tree with
  | nil =>
      cases there
      exact rule
  | cons index path ih =>
      rcases tree with ⟨symbol, literal, children⟩
      rcases descendant?_cons_eq_some_iff.mp there with ⟨child, found, below⟩
      exact ih ((literalsOnLeaves_node.mp rule).2 child (List.mem_of_getElem? found)) below

/-- A tree goes on obeying the rule when one part is replaced by a tree that obeys it. -/
theorem literalsOnLeaves_of_replaced {path : List Nat} {replacement result : Tree V}
    (rule : tree.literalsOnLeaves = true) (other : replacement.literalsOnLeaves = true)
    (replaced : tree.updateAt? (fun _ => replacement) path = some result) :
    result.literalsOnLeaves = true := by
  induction path generalizing tree result with
  | nil =>
      cases replaced
      exact other
  | cons index path ih =>
      rcases tree with ⟨symbol, literal, children⟩
      rcases exists_child_of_updateAt? replaced with ⟨child, later, found, below, rfl⟩
      rw [literalsOnLeaves_node] at rule ⊢
      constructor
      · intro inner
        exact rule.1 (List.ne_nil_of_mem (List.mem_of_getElem? found))
      · intro tree member
        rcases List.mem_or_eq_of_mem_set member with kept | rfl
        · exact rule.2 tree kept
        · exact ih (rule.2 child (List.mem_of_getElem? found)) below

namespace Built

theorem literalsOnLeaves (built : tree.Built) : tree.literalsOnLeaves = true := by
  induction built with
  | leaf symbol => rfl
  | @withLiteral value tree _ rule =>
      rcases tree with ⟨symbol, literal, _ | ⟨child, children⟩⟩
      · rfl
      · exact rule
  | @addChildren tree added _ _ rule each =>
      rcases tree with ⟨symbol, literal, children⟩
      rw [Tree.addChildren]
      split
      · rfl
      · rw [literalsOnLeaves_node] at rule ⊢
        refine ⟨fun _ => rfl, ?_⟩
        intro child member
        rcases List.mem_append.mp member with old | new
        · exact rule.2 child old
        · exact each child new
  | part _ there rule => exact literalsOnLeaves_of_descendant? rule there
  | replace _ _ replaced rule other =>
      rcases exists_path_of_updatePlace? replaced with ⟨path, changed⟩
      exact literalsOnLeaves_of_replaced rule other changed

/-- An edit of a part adds nothing to what can be built. -/
theorem edit {edit : Edit V} {place : Place} {result : Tree V} (built : tree.Built)
    (each : ∀ children, edit.children = some children → ∀ child ∈ children, child.Built)
    (edited : tree.updatePlace? edit.change place = some result) : result.Built := by
  rcases exists_path_of_updatePlace? edited with ⟨path, changed⟩
  rcases exists_part_of_updateAt? changed with ⟨part, there, replaced⟩
  have taken : part.Built := built.part there
  have other : (edit.change part).Built := by
    rcases edit with ⟨_ | value, _ | children⟩
    · exact taken
    · exact taken.addChildren (each children rfl)
    · exact taken.withLiteral value
    · exact (taken.withLiteral value).addChildren (each children rfl)
  have whole : tree.updatePlace? (fun _ => edit.change part) (.path path) = some result := replaced
  exact built.replace other whole

end Built

theorem built_iff : tree.Built ↔ tree.literalsOnLeaves = true := by
  refine ⟨Built.literalsOnLeaves, ?_⟩
  intro rule
  induction tree using Tree.induction with
  | leaf symbol literal =>
      cases literal with
      | none => exact .leaf symbol
      | some value => exact (Built.leaf symbol).withLiteral value
  | branch symbol literal child children ih =>
      rw [literalsOnLeaves_node] at rule
      rw [rule.1 (List.cons_ne_nil _ _)]
      exact (Built.leaf symbol).addChildren fun tree member => ih tree member (rule.2 tree member)

end Tree
end ProgramSearch
