import ProgramSearch.Proofs.Tree.Positions

namespace ProgramSearch
namespace Tree

/-!
# Editing a leaf splices the leaves

Whatever is done to the part at a path, the leaves to its left and to its right stay as they
are and its own leaves give way to those of what it has become.  A leaf named by its number is
the part at the leaf path of that number, so a literal changes one entry of the row of leaves
and new children take that entry's place.
-/

universe u

variable {V : Type u}

/-! ## One child among its siblings -/

theorem exists_siblings {index : Nat} {children : List (Tree V)} {child : Tree V}
    (present : children[index]? = some child) :
    ∃ before behind, before.length = index ∧ children = before ++ child :: behind ∧
      ∀ change : Tree V → Tree V,
        children.modify index change = before ++ change child :: behind := by
  rcases List.getElem?_eq_some_iff.mp present with ⟨within, rfl⟩
  refine ⟨children.take index, children.drop (index + 1), ?_, ?_, ?_⟩
  · rw [List.length_take, Nat.min_eq_left (Nat.le_of_lt within)]
  · rw [← List.drop_eq_getElem_cons within, List.take_append_drop]
  · intro change
    exact List.modify_eq_take_cons_drop within

theorem numbered_append (list : Tree V → List (List Nat)) (index : Nat)
    (before behind : List (Tree V)) :
    numbered list index (before ++ behind) =
      numbered list index before ++ numbered list (index + before.length) behind := by
  induction before generalizing index with
  | nil => rfl
  | cons tree before ih =>
      rw [List.cons_append, numbered, ih, numbered, List.append_assoc, List.length_cons,
        Nat.add_right_comm, Nat.add_assoc]

/-- As many paths are listed for a test as leaves of the tree pass it. -/
theorem length_leafPathsWhere (test : Tree V → Bool) (tree : Tree V) :
    (tree.leafPathsWhere test).length = tree.leaves.countP test := by
  rw [(tree.forall₂_leafPathsWhere test).length_eq, List.countP_eq_length_filter]

theorem length_numbered_leafPathsWhere (test : Tree V → Bool) (index : Nat)
    (trees : List (Tree V)) :
    (numbered (leafPathsWhere test) index trees).length = (trees.flatMap leaves).countP test := by
  induction trees generalizing index with
  | nil => rfl
  | cons tree trees ih =>
      rw [numbered, List.length_append, List.length_map, length_leafPathsWhere, ih,
        List.flatMap_cons, List.countP_append]

theorem leafPathsWhere_node {children : List (Tree V)} (inner : children ≠ [])
    (test : Tree V → Bool) (symbol : Symbol) (literal : Option V) :
    leafPathsWhere test (node symbol literal children) =
      numbered (leafPathsWhere test) 0 children := by
  cases children with
  | nil => exact absurd rfl inner
  | cons child children => rw [leafPathsWhere_node_cons, forestLeafPathsWhere_eq_numbered]

/-! ## The leaves on both sides of a part -/

/-- The leaves to the left and to the right of the part at a path, which no edit of the part
reaches. -/
structure Flanked (path : List Nat) (tree part : Tree V) (left right : List (Tree V)) : Prop where
  leaves : tree.leaves = left ++ part.leaves ++ right
  leaves_revised : ∀ edit : Edit V, (tree.revised edit (.path path)).leaves =
    left ++ (edit.change part).leaves ++ right
  /-- The leaf paths that lead into the part come behind those of the leaves to its left. -/
  leafPathsWhere : ∀ test, ∃ earlier later, earlier.length = left.countP test ∧
    tree.leafPathsWhere test =
      earlier ++ (part.leafPathsWhere test).map (path ++ ·) ++ later

theorem exists_flanks {path : List Nat} {tree part : Tree V}
    (there : tree.descendant? path = some part) :
    ∃ left right, Flanked path tree part left right := by
  induction path generalizing tree with
  | nil =>
      cases there
      refine ⟨[], [], by simp, fun edit => by simp [revised_nil], fun test => ⟨[], [], rfl, ?_⟩⟩
      simp
  | cons index path ih =>
      rcases tree with ⟨symbol, literal, children⟩
      rcases descendant?_cons_eq_some_iff.mp there with ⟨child, present, below⟩
      rcases ih below with ⟨left, right, flanked⟩
      rcases exists_siblings present with ⟨before, behind, rfl, rfl, modified⟩
      have inner : ∀ tree : Tree V, before ++ tree :: behind ≠ [] := fun tree => by simp
      refine ⟨before.flatMap Tree.leaves ++ left, right ++ behind.flatMap Tree.leaves, ?_, ?_, ?_⟩
      · rw [leaves_node (inner child), List.flatMap_append, List.flatMap_cons, flanked.leaves]
        simp only [List.append_assoc]
      · intro edit
        rw [revised_cons, modified, leaves_node (inner _), List.flatMap_append,
          List.flatMap_cons, flanked.leaves_revised]
        simp only [List.append_assoc]
      · intro test
        rcases flanked.leafPathsWhere test with ⟨earlier, later, count, listed⟩
        refine ⟨numbered (Tree.leafPathsWhere test) 0 before ++
            earlier.map (before.length :: ·),
          later.map (before.length :: ·) ++
            numbered (Tree.leafPathsWhere test) (before.length + 1) behind, ?_, ?_⟩
        · rw [List.length_append, List.length_map, length_numbered_leafPathsWhere, count,
            List.countP_append]
        · rw [leafPathsWhere_node (inner child), numbered_append, numbered, Nat.zero_add, listed]
          simp

/-- A path that is listed for a test has as many paths before it as leaves to its left pass the
test. -/
theorem Flanked.countP_left {path : List Nat} {tree leaf : Tree V} {left right : List (Tree V)}
    (flanked : Flanked path tree leaf left right) {test : Tree V → Bool} {number : Nat}
    (listed : (tree.leafPathsWhere test)[number]? = some path) (childless : leaf.children = [])
    (passes : test leaf = true) : left.countP test = number := by
  rcases flanked.leafPathsWhere test with ⟨earlier, later, count, row⟩
  have own : leaf.leafPathsWhere test = [[]] := by
    rcases leaf with ⟨symbol, literal, children⟩
    cases childless
    rw [Tree.leafPathsWhere, if_pos passes]
  have here : (tree.leafPathsWhere test)[earlier.length]? = some path := by
    rw [row, own]
    simp
  have once : (tree.leafPathsWhere test).Nodup :=
    (tree.pairwise_leafPathsWhere test).imp TurnsLeft.ne
  have within : number < (tree.leafPathsWhere test).length :=
    (List.getElem?_eq_some_iff.mp listed).1
  rw [← count]
  exact ((List.getElem?_inj within once).mp (listed.trans here.symm)).symm

/-! ## Sizes and skeletons -/

theorem forestSize_append (before behind : List (Tree V)) :
    forestSize (before ++ behind) = forestSize before + forestSize behind := by
  induction before with
  | nil => rw [List.nil_append, forestSize, Nat.zero_add]
  | cons tree before ih => rw [List.cons_append, forestSize, forestSize, ih, Nat.add_assoc]

theorem forestSize_eq_sum (trees : List (Tree V)) : forestSize trees = (trees.map size).sum := by
  induction trees with
  | nil => rfl
  | cons tree trees ih => rw [forestSize, ih, List.map_cons, List.sum_cons]

/-- A tree grows by what the edited part grows. -/
theorem size_revised_add (edit : Edit V) {path : List Nat} {tree part : Tree V}
    (there : tree.descendant? path = some part) :
    (tree.revised edit (.path path)).size + part.size = tree.size + (edit.change part).size := by
  induction path generalizing tree with
  | nil =>
      cases there
      exact Nat.add_comm _ _
  | cons index path ih =>
      rcases tree with ⟨symbol, literal, children⟩
      rcases descendant?_cons_eq_some_iff.mp there with ⟨child, present, below⟩
      rcases exists_siblings present with ⟨before, behind, rfl, rfl, modified⟩
      have grown := ih below
      rw [revised_cons, modified]
      simp only [size, forestSize_append, forestSize]
      omega

theorem skeleton_withLiteral (value : V) (tree : Tree V) :
    (tree.withLiteral value).skeleton = tree.skeleton := by
  rcases tree with ⟨symbol, literal, _ | ⟨child, children⟩⟩ <;> rfl

/-- An edit that keeps skeletons keeps that of the whole tree. -/
theorem skeleton_revised {edit : Edit V}
    (keeps : ∀ tree : Tree V, (edit.change tree).skeleton = tree.skeleton) (path : List Nat)
    (tree : Tree V) : (tree.revised edit (.path path)).skeleton = tree.skeleton := by
  induction path generalizing tree with
  | nil => exact keeps tree
  | cons index path ih =>
      rcases tree with ⟨symbol, literal, children⟩
      cases present : children[index]? with
      | none =>
          have beyond : children.length ≤ index := List.getElem?_eq_none_iff.mp present
          rw [revised_cons, List.modify_eq_self beyond]
      | some child =>
          rcases exists_siblings present with ⟨before, behind, rfl, rfl, modified⟩
          rw [revised_cons, modified]
          simp only [skeleton, forestSkeletons_eq_map, List.map_append, List.map_cons, ih child]

theorem size_skeleton (tree : Tree V) : tree.skeleton.size = tree.size := by
  induction tree using induction_children with
  | inherit symbol literal children ih =>
      rw [skeleton, size, size, forestSize_eq_sum, forestSize_eq_sum, forestSkeletons_eq_map,
        List.map_map]
      exact congrArg (fun sizes => 1 + List.sum sizes) (List.map_congr_left ih)

theorem leafPaths_skeleton (tree : Tree V) : tree.skeleton.leafPaths = tree.leafPaths := by
  have row : ∀ trees : List (Tree V), (∀ tree ∈ trees, tree.skeleton.leafPaths = tree.leafPaths) →
      ∀ index, numbered leafPaths index (trees.map skeleton) = numbered leafPaths index trees := by
    intro trees each
    induction trees with
    | nil => exact fun _ => rfl
    | cons tree trees ih =>
        intro index
        rw [List.map_cons, numbered, numbered, each tree List.mem_cons_self,
          ih fun other member => each other (List.mem_cons_of_mem _ member)]
  induction tree using Tree.induction with
  | leaf symbol literal => rfl
  | branch symbol literal child children ih =>
      rw [skeleton, forestSkeletons_eq_map]
      calc
        leafPaths (node symbol none ((child :: children).map skeleton)) =
            numbered leafPaths 0 ((child :: children).map skeleton) :=
          leafPathsWhere_node (by simp) _ symbol none
        _ = numbered leafPaths 0 (child :: children) := row (child :: children) ih 0
        _ = leafPaths (node symbol literal (child :: children)) :=
          (leafPathsWhere_node (List.cons_ne_nil _ _) _ symbol literal).symm

/-! ## Edits of one leaf -/

/-- What an edit at a place does to the leaves of a tree, where the place is that of the leaf at
the given position. -/
structure SplicesLeaf (place : Place) (position : Nat) (tree : Tree V) : Prop where
  /-- The edit finds its leaf. -/
  found : ∀ edit : Edit V, (tree.updatePlace? edit.change place).isSome
  /-- A literal is attached to that leaf, and every other leaf stays. -/
  leaves_attach : ∀ value, (tree.revised ⟨some value, none⟩ place).leaves =
    tree.leaves.modify position fun leaf => node leaf.symbol (some value) []
  leafPaths_attach : ∀ value,
    (tree.revised ⟨some value, none⟩ place).leafPaths = tree.leafPaths
  /-- All symbols stay in their places. -/
  skeleton_attach : ∀ value,
    (tree.revised ⟨some value, none⟩ place).skeleton = tree.skeleton
  size_attach : ∀ value, (tree.revised ⟨some value, none⟩ place).size = tree.size
  /-- The leaves of the new children stand where the leaf stood. -/
  leaves_append : ∀ added : List (Tree V), added ≠ [] →
    (tree.revised ⟨none, some added⟩ place).leaves =
      tree.leaves.take position ++ added.flatMap leaves ++ tree.leaves.drop (position + 1)
  size_append : ∀ added : List (Tree V), added ≠ [] →
    (tree.revised ⟨none, some added⟩ place).size = tree.size + (added.map size).sum

theorem leaves_of_childless {leaf : Tree V} (childless : leaf.children = []) :
    leaf.leaves = [leaf] := by
  rcases leaf with ⟨symbol, literal, children⟩
  cases childless
  rw [leaves]

theorem Flanked.leaves_eq_cons {path : List Nat} {tree leaf : Tree V} {left right : List (Tree V)}
    (flanked : Flanked path tree leaf left right) (childless : leaf.children = []) :
    tree.leaves = left ++ leaf :: right := by
  rw [flanked.leaves, leaves_of_childless childless, List.append_assoc, List.singleton_append]

/-- A leaf that is given children loses its literal to them. -/
theorem change_append_leaf {leaf : Tree V} (childless : leaf.children = []) {added : List (Tree V)}
    (nonempty : added ≠ []) :
    (Edit.mk none (some added)).change leaf = node leaf.symbol none added := by
  rcases leaf with ⟨symbol, literal, children⟩
  cases childless
  cases added with
  | nil => exact absurd rfl nonempty
  | cons tree added => rfl

theorem change_attach_leaf {leaf : Tree V} (childless : leaf.children = []) (value : V) :
    (Edit.mk (some value) none).change leaf = node leaf.symbol (some value) [] := by
  rcases leaf with ⟨symbol, literal, children⟩
  cases childless
  rfl

/-- An edit of a leaf that has been found by its path splices the leaves at its position. -/
theorem Flanked.splicesLeaf {path : List Nat} {tree leaf : Tree V} {left right : List (Tree V)}
    (flanked : Flanked path tree leaf left right) (there : tree.descendant? path = some leaf)
    (childless : leaf.children = []) {place : Place}
    (resolved : ∀ change : Tree V → Tree V,
      tree.updatePlace? change place = tree.updateAt? change path) :
    tree.SplicesLeaf place left.length := by
  have moved : ∀ edit : Edit V, tree.revised edit place = tree.revised edit (.path path) :=
    fun edit => congrArg (Option.getD · tree) (resolved edit.change)
  have row := flanked.leaves_eq_cons childless
  have kept : ∀ value, (tree.revised ⟨some value, none⟩ place).skeleton = tree.skeleton := by
    intro value
    rw [moved]
    exact skeleton_revised (skeleton_withLiteral value) path tree
  refine
    { found := ?_
      leaves_attach := ?_
      leafPaths_attach := ?_
      skeleton_attach := kept
      size_attach := ?_
      leaves_append := ?_
      size_append := ?_ }
  · intro edit
    rw [resolved, isSome_updateAt?_iff, there]
    rfl
  · intro value
    have within : left.length < tree.leaves.length := by
      rw [row]
      simp
    rw [moved, flanked.leaves_revised, change_attach_leaf childless, leaves_of_childless rfl,
      List.modify_eq_take_cons_drop within]
    simp [row]
  · intro value
    rw [← leafPaths_skeleton, kept, leafPaths_skeleton]
  · intro value
    rw [← size_skeleton, kept, size_skeleton]
  · intro added nonempty
    rw [moved, flanked.leaves_revised, change_append_leaf childless nonempty,
      leaves_node nonempty, row]
    simp
  · intro added nonempty
    have single : leaf.size = 1 := by
      rcases leaf with ⟨symbol, literal, children⟩
      cases childless
      rfl
    have grown := size_revised_add ⟨none, some added⟩ there
    rw [change_append_leaf childless nonempty, size, forestSize_eq_sum, single] at grown
    rw [moved]
    omega

/-- The leaf at a path that is listed for a test has the position at which the test has been
passed as often as the path's number says, and editing it splices the leaves there. -/
theorem exists_splicesLeaf {test : Tree V → Bool} {number : Nat} {path : List Nat} {tree : Tree V}
    (listed : (tree.leafPathsWhere test)[number]? = some path) {place : Place}
    (resolved : ∀ change : Tree V → Tree V,
      tree.updatePlace? change place = tree.updateAt? change path) :
    ∃ position leaf, tree.leaves[position]? = some leaf ∧ test leaf = true ∧
      (tree.leaves.take position).countP test = number ∧ tree.SplicesLeaf place position := by
  rcases mem_leafPathsWhere_iff.mp (List.mem_of_getElem? listed) with
    ⟨leaf, there, childless, passes⟩
  rcases exists_flanks there with ⟨left, right, flanked⟩
  have row := flanked.leaves_eq_cons childless
  refine ⟨left.length, leaf, ?_, passes, ?_, flanked.splicesLeaf there childless resolved⟩
  · rw [row]
    simp
  · rw [row, List.take_left, flanked.countP_left listed childless passes]

/-- A number past the last leaf names no leaf, and any other number that of the leaf at its
position.  Among the leaves that a grammar can still expand, the leaf of a number is the one
that so many of them precede.  The grammar has to admit the symbols of all leaves. -/
theorem leaf_edits_splice (tree : Tree V) (number : Nat) :
    (tree.leaves.length ≤ number → ∀ edit : Edit V,
      tree.updatePlace? edit.change (.leaf number) = none ∧
        tree.revised edit (.leaf number) = tree) ∧
    (number < tree.leaves.length → tree.SplicesLeaf (.leaf number) number) ∧
    ∀ grammar : Grammar, (∀ leaf ∈ tree.leaves, grammar.Admits leaf.symbol) →
      (∀ edit : Edit V, tree.editNonterminalLeaf? grammar edit.change number =
        some (tree.updatePlace? edit.change (.nonterminalLeaf grammar number))) ∧
      ((tree.nonterminalLeaves grammar).length ≤ number → ∀ edit : Edit V,
        tree.updatePlace? edit.change (.nonterminalLeaf grammar number) = none ∧
          tree.revised edit (.nonterminalLeaf grammar number) = tree) ∧
      (number < (tree.nonterminalLeaves grammar).length →
        ∃ position leaf, tree.leaves[position]? = some leaf ∧
          grammar.isNonterminal leaf.symbol = true ∧
          (tree.leaves.take position).countP (fun leaf => grammar.isNonterminal leaf.symbol) =
            number ∧
          tree.SplicesLeaf (.nonterminalLeaf grammar number) position) := by
  have paths : tree.leafPaths.length = tree.leaves.length := tree.forall₂_leafPaths.length_eq
  refine ⟨?_, ?_, ?_⟩
  · intro past edit
    have absent : tree.updatePlace? edit.change (.leaf number) = none := by
      simp [updatePlace?, updateLeaf?, paths, past]
    exact ⟨absent, revised_of_updatePlace?_eq_none absent⟩
  · intro within
    rw [← paths] at within
    have listed := List.getElem?_eq_getElem within
    have resolved : ∀ change : Tree V → Tree V, tree.updatePlace? change (.leaf number) =
        tree.updateAt? change tree.leafPaths[number] := by
      intro change
      simp only [updatePlace?, updateLeaf?, listed, Option.bind_some]
    rcases exists_splicesLeaf listed resolved with ⟨position, leaf, here, _, count, splices⟩
    have inside : position < tree.leaves.length := (List.getElem?_eq_some_iff.mp here).1
    have same : position = number := by
      rw [← count, List.countP_true, List.length_take, Nat.min_eq_left (Nat.le_of_lt inside)]
    exact same ▸ splices
  · intro grammar admits
    have holes : (tree.nonterminalLeafPaths grammar).length =
        (tree.nonterminalLeaves grammar).length :=
      (tree.forall₂_leafPathsWhere _).length_eq
    refine ⟨fun edit => askLeaves?_of_admits admits _, ?_, ?_⟩
    · intro past edit
      have absent : tree.updatePlace? edit.change (.nonterminalLeaf grammar number) = none := by
        simp [updatePlace?, updateNonterminalLeaf?, holes, past]
      exact ⟨absent, revised_of_updatePlace?_eq_none absent⟩
    · intro within
      rw [← holes] at within
      have listed := List.getElem?_eq_getElem within
      have resolved : ∀ change : Tree V → Tree V,
          tree.updatePlace? change (.nonterminalLeaf grammar number) =
            tree.updateAt? change (tree.nonterminalLeafPaths grammar)[number] := by
        intro change
        simp only [updatePlace?, updateNonterminalLeaf?, listed, Option.bind_some]
      exact exists_splicesLeaf listed resolved

theorem leaf_edits_splice_halfExpanded :
    (halfExpanded.leaves.length ≤ 2 ∧ ∀ edit : Edit Nat,
      halfExpanded.updatePlace? edit.change (.leaf 2) = none ∧
        halfExpanded.revised edit (.leaf 2) = halfExpanded) ∧
    (1 < halfExpanded.leaves.length ∧ halfExpanded.SplicesLeaf (.leaf 1) 1) ∧
    (∀ leaf ∈ halfExpanded.leaves, unruled.Admits leaf.symbol) ∧
      0 < (halfExpanded.nonterminalLeaves unruled).length ∧
      halfExpanded.SplicesLeaf (.nonterminalLeaf unruled 0) 1 := by
  have past : halfExpanded.leaves.length ≤ 2 := by decide
  have within : 1 < halfExpanded.leaves.length := by decide
  have open_leaf : 0 < (halfExpanded.nonterminalLeaves unruled).length := by decide
  refine ⟨⟨past, (leaf_edits_splice halfExpanded 2).1 past⟩,
    ⟨within, (leaf_edits_splice halfExpanded 1).2.1 within⟩, admits_halfExpanded, open_leaf, ?_⟩
  rcases ((leaf_edits_splice halfExpanded 0).2.2 unruled admits_halfExpanded).2.2 open_leaf with
    ⟨position, leaf, here, expandable, _, splices⟩
  -- The leaf at the front is a terminal, so the one found is the second.
  match position, here, splices with
  | 0, here, _ =>
      cases here
      exact absurd expandable (by decide)
  | 1, _, splices => exact splices
  | position + 2, here, _ => cases here

/-- A copy finds no nonterminal leaf, and not even that there is none, where a leaf has a symbol
that its original has minted since. -/
theorem leaf_edit_overtaken_breaks_off :
    (node ⟨0, 0⟩ none [leaf ⟨0, 2⟩] : Tree Int64).leaves = [leaf ⟨0, 2⟩] ∧
      ∀ edit : Edit Int64, (node ⟨0, 0⟩ none [leaf ⟨0, 2⟩]).editNonterminalLeaf?
        Grammar.overtaken edit.change 0 = none := by
  refine ⟨by decide, fun edit => ?_⟩
  exact askLeaves?_eq_none (List.mem_singleton.mpr rfl) (by decide) (by decide) _

end Tree
end ProgramSearch
