import ProgramSearch.Proofs.Tree.Locality
import ProgramSearch.Tree.History

namespace ProgramSearch
namespace Tree

/-!
# Only leaves carry literals

No step of a history puts a literal on a node with children: a new leaf has none, a part of a
tree obeys the rule that the tree obeys, a node with children refuses a literal, and a node that
gains children loses its own.  Every tree that obeys the rule has a history, so the rule says all
there is to say about trees that were made.
-/

universe u

variable {V : Type u}

/-! ## No step breaks the rule -/

/-- An edit at any place leaves the tree as it is or is made at a path. -/
theorem revised_eq_or_exists_path (edit : Edit V) (place : Place) (tree : Tree V) :
    tree.revised edit place = tree ∨
      ∃ path, tree.revised edit place = tree.revised edit (.path path) := by
  cases updated : tree.updatePlace? edit.change place with
  | none => exact .inl (revised_of_updatePlace?_eq_none updated)
  | some result =>
      rcases exists_path_of_updatePlace? updated with ⟨path, changed⟩
      refine .inr ⟨path, ?_⟩
      rw [revised, revised, updatePlace?, updated, changed]

namespace Built

variable {tree : Tree V}

theorem revised {edit : Edit V} (built : tree.Built)
    (each : ∀ children, edit.children = some children → ∀ child ∈ children, child.Built)
    (place : Place) : (tree.revised edit place).Built := by
  cases updated : tree.updatePlace? edit.change place with
  | none =>
      rw [revised_of_updatePlace?_eq_none updated]
      exact built
  | some result =>
      rw [Tree.revised, updated, Option.getD_some]
      exact built.edit each updated

end Built

theorem forall_mem_modify {property : Tree V → Prop} {change : Tree V → Tree V}
    {trees : List (Tree V)} (all : ∀ tree ∈ trees, property tree)
    (kept : ∀ tree ∈ trees, property (change tree)) (number : Nat) :
    ∀ tree ∈ trees.modify number change, property tree := by
  intro tree member
  rcases List.mem_iff_getElem?.mp member with ⟨index, here⟩
  rw [List.getElem?_modify] at here
  rcases Option.map_eq_some_iff.mp here with ⟨before, there, rfl⟩
  have old : before ∈ trees := List.mem_of_getElem? there
  split
  · exact kept before old
  · exact all before old

/-- One more step leads from built trees to built trees. -/
theorem built_forestExtend {trees : List (Tree V)} (built : ∀ tree ∈ trees, tree.Built)
    (step : TreeStep V) : ∀ tree ∈ forestExtend trees step, tree.Built := by
  cases step with
  | create symbol =>
      refine List.forall_mem_append.mpr ⟨built, ?_⟩
      intro tree new
      rw [List.mem_singleton.mp new]
      exact .leaf symbol
  | copy number =>
      refine List.forall_mem_append.mpr ⟨built, ?_⟩
      intro tree new
      exact built tree (List.mem_of_getElem? (Option.mem_toList.mp new))
  | part number path =>
      refine List.forall_mem_append.mpr ⟨built, ?_⟩
      intro tree new
      rcases Option.bind_eq_some_iff.mp (Option.mem_toList.mp new) with ⟨whole, found, there⟩
      exact (built whole (List.mem_of_getElem? found)).part there
  | attach number place value =>
      apply forall_mem_modify built
      intro tree member
      apply (built tree member).revised
      rintro children ⟨⟩
  | append number place added =>
      apply forall_mem_modify built
      intro tree member
      apply (built tree member).revised
      rintro children ⟨⟩ child picked
      rcases List.mem_filterMap.mp picked with ⟨number, _, found⟩
      exact built child (List.mem_of_getElem? found)

/-- Whatever the steps, they lead from built trees to built trees. -/
theorem built_foldl_forestExtend {trees : List (Tree V)} (built : ∀ tree ∈ trees, tree.Built)
    (steps : List (TreeStep V)) : ∀ tree ∈ steps.foldl forestExtend trees, tree.Built := by
  induction steps generalizing trees with
  | nil => exact built
  | cons step steps ih => exact ih (built_forestExtend built step)

/-! ## What leaves a tree as it is -/

/-- An edit that does nothing to the part at a path does nothing to the tree. -/
theorem revised_eq_self {edit : Edit V} {path : List Nat} {tree : Tree V}
    (idle : ∀ part, tree.descendant? path = some part → edit.change part = part) :
    tree.revised edit (.path path) = tree := by
  induction path generalizing tree with
  | nil => exact idle tree rfl
  | cons index path ih =>
      rcases tree with ⟨symbol, literal, children⟩
      rw [revised_cons]
      congr 1
      apply List.ext_getElem?
      intro position
      rw [List.getElem?_modify]
      cases here : children[position]? with
      | none => rfl
      | some child =>
          rw [Option.map_eq_map, Option.map_some]
          split
          · -- This is the child on the path; its siblings are not touched at all.
            rename_i same
            subst same
            rw [ih fun part there => idle part (descendant?_cons_eq_some_iff.mpr
              ⟨child, here, there⟩)]
          · rfl

theorem withLiteral_of_inner (value : V) {tree : Tree V} (inner : tree.children ≠ []) :
    tree.withLiteral value = tree := by
  rcases tree with ⟨symbol, literal, _ | ⟨child, children⟩⟩
  · exact absurd rfl inner
  · rfl

/-- A node with children refuses a literal, wherever it stands. -/
theorem revised_attach_of_inner (value : V) {path : List Nat} {tree part : Tree V}
    (there : tree.descendant? path = some part) (inner : part.children ≠ []) :
    tree.revised ⟨some value, none⟩ (.path path) = tree := by
  apply revised_eq_self
  intro found here
  rw [there] at here
  cases here
  exact withLiteral_of_inner value inner

/-- Where only leaves carry literals, appending no children changes nothing. -/
theorem revised_append_nil {tree : Tree V} (rule : tree.literalsOnLeaves = true)
    (place : Place) : tree.revised ⟨none, some []⟩ place = tree := by
  rcases tree.revised_eq_or_exists_path ⟨none, some []⟩ place with kept | ⟨path, moved⟩
  · exact kept
  · rw [moved]
    apply revised_eq_self
    intro part there
    exact part.addChildren_nil (literalsOnLeaves_of_descendant? rule there)

/-! ## Every tree that obeys the rule can be made -/

theorem modify_concat_length (change : Tree V → Tree V) (trees : List (Tree V)) (tree : Tree V) :
    (trees ++ [tree]).modify trees.length change = trees ++ [change tree] := by
  induction trees with
  | nil => rfl
  | cons first trees ih =>
      rw [List.cons_append, List.length_cons, List.modify_succ_cons, ih, List.cons_append]

/-- Whatever trees are there, some steps leave them alone and make this tree as the last one. -/
def CanBeMade (tree : Tree V) : Prop :=
  ∀ trees : List (Tree V), ∃ (steps : List (TreeStep V)) (more : List (Tree V)),
    steps.foldl forestExtend trees = trees ++ more ++ [tree]

/-- Children that can each be made can be made one after the other and then be picked, also once
further trees stand behind them. -/
theorem exists_forestPick {children : List (Tree V)} (each : ∀ child ∈ children, child.CanBeMade)
    (trees : List (Tree V)) :
    ∃ (steps : List (TreeStep V)) (more : List (Tree V)) (numbers : List Nat),
      steps.foldl forestExtend trees = trees ++ more ∧
        ∀ later, forestPick numbers (trees ++ more ++ later) = children := by
  induction children generalizing trees with
  | nil => exact ⟨[], [], [], (List.append_nil trees).symm, fun _ => rfl⟩
  | cons child children ih =>
      rcases List.forall_mem_cons.mp each with ⟨first, others⟩
      rcases first trees with ⟨before, between, made⟩
      rcases ih others (trees ++ between ++ [child]) with ⟨steps, more, numbers, grown, picked⟩
      refine ⟨before ++ steps, between ++ [child] ++ more, (trees ++ between).length :: numbers,
        ?_, fun later => ?_⟩
      · rw [List.foldl_append, made, grown]
        simp only [List.append_assoc]
      · have row : trees ++ (between ++ [child] ++ more) ++ later =
            trees ++ between ++ [child] ++ more ++ later := by
          simp only [List.append_assoc]
        have here : (trees ++ between ++ [child] ++ more ++ later)[(trees ++ between).length]? =
            some child := by
          simp
        rw [row, forestPick, List.filterMap_cons_some here]
        exact congrArg (child :: ·) (picked later)

/-- A tree that obeys the rule is made from its leaves upwards. -/
theorem canBeMade_of_rule {tree : Tree V} (rule : tree.literalsOnLeaves = true) :
    tree.CanBeMade := by
  induction tree using Tree.induction with
  | leaf symbol literal =>
      intro trees
      cases literal with
      | none => exact ⟨[.create symbol], [], by rw [List.append_nil]; rfl⟩
      | some value =>
          refine ⟨[.create symbol, .attach trees.length (.path []) value], [], ?_⟩
          rw [List.append_nil]
          exact modify_concat_length _ trees (leaf symbol)
  | branch symbol literal child children ih =>
      intro trees
      rw [literalsOnLeaves_node] at rule
      have each : ∀ tree ∈ child :: children, tree.CanBeMade :=
        fun tree member => ih tree member (rule.2 tree member)
      rcases exists_forestPick each trees with ⟨steps, more, numbers, grown, picked⟩
      -- The children are picked once their parent already stands behind them.
      refine ⟨steps ++ [.create symbol, .append (trees ++ more).length (.path []) numbers], more,
        ?_⟩
      rw [List.foldl_append, grown, rule.1 (List.cons_ne_nil child children), List.foldl_cons,
        List.foldl_cons, List.foldl_nil, forestExtend, forestExtend, picked [leaf symbol]]
      exact modify_concat_length _ (trees ++ more) (leaf symbol)

/-! ## Made trees -/

theorem literalsOnLeaves_iff_everywhere {tree : Tree V} :
    tree.literalsOnLeaves = true ↔
      tree.Everywhere fun part => part.children ≠ [] → part.literal = none := by
  induction tree using induction_children with
  | inherit symbol literal children ih =>
      rw [literalsOnLeaves_node, everywhere_node]
      exact and_congr_right fun _ => forall₂_congr ih

/-- What follows from the rule that only leaves carry literals, for a tree and for those who
work on it. -/
structure KeepsLiteralsOnLeaves (tree : Tree V) : Prop where
  /-- No part with children carries a literal. -/
  bare : tree.Everywhere fun part => part.children ≠ [] → part.literal = none
  /-- A literal that is attached to a part with children, to the tree itself or further down,
  leaves the whole tree as it is. -/
  refuses : ∀ path part value, tree.descendant? path = some part → part.children ≠ [] →
    tree.revised ⟨some value, none⟩ (.path path) = tree
  /-- So does appending no children, wherever it is done. -/
  idle : ∀ place, tree.revised ⟨none, some []⟩ place = tree

/-- The trees that histories lead to, whatever their steps and in whatever order, are those with
literals on leaves only. -/
theorem made_iff_keepsLiteralsOnLeaves (tree : Tree V) :
    (∃ steps, tree ∈ forestBuild steps) ↔ tree.KeepsLiteralsOnLeaves := by
  constructor
  · rintro ⟨steps, member⟩
    have built : tree.Built :=
      built_foldl_forestExtend (fun _ absent => absurd absent List.not_mem_nil) steps tree member
    have rule := built.literalsOnLeaves
    exact ⟨literalsOnLeaves_iff_everywhere.mp rule,
      fun _ _ value there inner => revised_attach_of_inner value there inner,
      revised_append_nil rule⟩
  · intro kept
    rcases canBeMade_of_rule (literalsOnLeaves_iff_everywhere.mpr kept.bare) [] with
      ⟨steps, more, made⟩
    refine ⟨steps, ?_⟩
    rw [forestBuild, made]
    exact List.mem_append_right _ List.mem_cons_self

/-- A leaf gains a copy of itself and loses its literal, the root then refuses another one, and
the leaf below it takes one. -/
def nested : List (TreeStep Nat) :=
  [.create ⟨0, 0⟩, .attach 0 (.path []) 4, .append 0 (.leaf 0) [0], .attach 0 (.path []) 5,
    .part 0 [0], .attach 0 (.leaf 0) 6]

theorem made_iff_keepsLiteralsOnLeaves_nested :
    forestBuild nested = [node ⟨0, 0⟩ none [node ⟨0, 0⟩ (some 6) []], node ⟨0, 0⟩ (some 4) []] ∧
      (node ⟨0, 0⟩ none [node ⟨0, 0⟩ (some 6) []]).KeepsLiteralsOnLeaves ∧
      ¬ (node ⟨0, 0⟩ (some 5) [node ⟨0, 0⟩ (some 6) []]).KeepsLiteralsOnLeaves := by
  have built : forestBuild nested =
      [node ⟨0, 0⟩ none [node ⟨0, 0⟩ (some 6) []], node ⟨0, 0⟩ (some 4) []] := rfl
  refine ⟨built, (made_iff_keepsLiteralsOnLeaves _).mp ⟨nested, ?_⟩, fun kept => ?_⟩
  · rw [built]
    exact List.mem_cons_self
  · have bare := kept.bare [] _ rfl (List.cons_ne_nil _ _)
    cases bare

end Tree
end ProgramSearch
