import ProgramSearch.Proofs.Grammar.Reachability
import ProgramSearch.Proofs.Sketch.Interleaving
import ProgramSearch.Proofs.Tree.Hooks

namespace ProgramSearch
namespace Grammar

/-!
# How often a tree is reached by rewriting

A tree is reached from its root symbol once for each order in which its inner nodes can be
expanded, parents before children, and for each choice of alternatives.  Below the root the
children are rewritten side by side, so that the orders of a row are counted by binomial
coefficients, and these cancel against the factorials in the numbers for the single
children.  What remains is the factorial of the number of inner nodes over the product of
the hooks.
-/

universe u

variable {V : Type u} {grammar : Grammar}

theorem symbol_of_mem_rewrites {tree rewritten : Tree V}
    (member : rewritten ∈ tree.rewrites grammar) : rewritten.symbol = tree.symbol := by
  rcases tree with ⟨symbol, literal, _ | ⟨child, children⟩⟩
  · rcases List.mem_map.mp member with ⟨body, _, rfl⟩
    cases body <;> rfl
  · rcases List.mem_map.mp member with ⟨trees, _, rfl⟩
    rfl

/-! ## Walks of a row -/

theorem map_symbol_of_mem_forestRewrites {trees rewritten : List (Tree V)}
    (member : rewritten ∈ Tree.forestRewrites grammar trees) :
    rewritten.map Tree.symbol = trees.map Tree.symbol := by
  rcases mem_forestRewrites.mp member with ⟨before, tree, behind, tree', rfl, rewriting, rfl⟩
  rw [List.map_append, List.map_cons, List.map_append, List.map_cons,
    symbol_of_mem_rewrites rewriting]

theorem map_symbol_of_mem_walkEnds {trees last : List (Tree V)} {count : Nat}
    (member : last ∈ walkEnds (Tree.forestRewrites grammar) count trees) :
    last.map Tree.symbol = trees.map Tree.symbol := by
  have step : ∀ earlier : List (Tree V), earlier.map Tree.symbol = trees.map Tree.symbol →
      ∀ later ∈ Tree.forestRewrites grammar earlier,
        later.map Tree.symbol = trees.map Tree.symbol :=
    fun earlier same later rewriting => (map_symbol_of_mem_forestRewrites rewriting).trans same
  exact of_mem_walkEnds step rfl member

theorem forestInnerCount_le_of_mem_forestRewrites {trees rewritten : List (Tree V)}
    (member : rewritten ∈ Tree.forestRewrites grammar trees) :
    Tree.forestInnerCount rewritten ≤ Tree.forestInnerCount trees + 1 := by
  rcases mem_forestRewrites.mp member with ⟨before, tree, behind, tree', rfl, rewriting, rfl⟩
  have grown := innerCount_le_of_mem_rewrites rewriting
  rw [Tree.forestInnerCount_eq_sum, Tree.forestInnerCount_eq_sum]
  simp only [List.map_append, List.map_cons, List.sum_append, List.sum_cons]
  omega

/-- Below a root with children, walks of the tree are walks of the row of children. -/
theorem walkEnds_node (symbol : Symbol) (literal : Option V) {children : List (Tree V)}
    (inner : children ≠ []) (count : Nat) :
    walkEnds (Tree.rewrites grammar) count (.node symbol literal children) =
      (walkEnds (Tree.forestRewrites grammar) count children).map (.node symbol literal) := by
  have alike : ∀ trees : List (Tree V), trees ≠ [] →
      (Tree.node symbol literal trees).rewrites grammar =
        (Tree.forestRewrites grammar trees).map (Tree.node symbol literal) := by
    intro trees some
    cases trees with
    | nil => exact absurd rfl some
    | cons tree trees => rfl
  apply walkEnds_map (Tree.node symbol literal) alike _ _ inner
  intro trees some rewritten member none
  have symbols := map_symbol_of_mem_forestRewrites member
  rw [none, List.map_nil, eq_comm, List.map_eq_nil_iff] at symbols
  exact some symbols

/-! ## Counting shortest walks -/

theorem addChildren_leaf (symbol : Symbol) {children : List (Tree V)} (inner : children ≠ []) :
    Tree.addChildren children (Tree.leaf symbol) = .node symbol none children := by
  cases children with
  | nil => exact absurd rfl inner
  | cons child children => rfl

section Count

variable [DecidableEq V]

/-- How often a tree is reached from its root symbol in as many rewritings as it has inner
nodes. -/
def derivationCount (grammar : Grammar) (goal : Tree V) : Nat :=
  (walkEnds (Tree.rewrites grammar) goal.innerCount (Tree.leaf goal.symbol)).count goal

/-- The same for a row of trees, of which any one is rewritten in each step. -/
def forestDerivationCount (grammar : Grammar) (goals : List (Tree V)) : Nat :=
  (walkEnds (Tree.forestRewrites grammar) (Tree.forestInnerCount goals)
    ((goals.map Tree.symbol).map Tree.leaf)).count goals

/-- Fewer rewritings than inner nodes do not lead from a leaf to a tree. -/
theorem count_walkEnds_eq_zero {symbol : Symbol} {goal : Tree V} {count : Nat}
    (few : count < goal.innerCount) :
    (walkEnds (Tree.rewrites grammar) count (Tree.leaf symbol)).count goal = 0 := by
  apply count_walkEnds_eq_zero_of_lt Tree.innerCount fun _ _ => innerCount_le_of_mem_rewrites
  rwa [Tree.innerCount_leaf, Nat.zero_add]

theorem count_walkEnds_forest_eq_zero {symbols : List Symbol} {goals : List (Tree V)}
    {count : Nat} (few : count < Tree.forestInnerCount goals) :
    (walkEnds (Tree.forestRewrites grammar) count (symbols.map Tree.leaf)).count goals = 0 := by
  apply count_walkEnds_eq_zero_of_lt Tree.forestInnerCount fun _ _ =>
    forestInnerCount_le_of_mem_forestRewrites
  rwa [forestInnerCount_map_leaf, Nat.zero_add]

/-- The steps of a row are those of its first tree and those of the others, shuffled. -/
theorem forestDerivationCount_cons (goal : Tree V) (goals : List (Tree V)) :
    forestDerivationCount grammar (goal :: goals) =
      (Tree.forestInnerCount (goal :: goals)).choose goal.innerCount *
        (derivationCount grammar goal * forestDerivationCount grammar goals) := by
  have steps : ∀ (tree : Tree V) (trees : List (Tree V)),
      Tree.forestRewrites grammar (tree :: trees) =
        (tree.rewrites grammar).map (fun moved => moved :: trees) ++
          (Tree.forestRewrites grammar trees).map (tree :: ·) := by
    intro tree trees
    rw [Tree.forestRewrites]
  rw [forestDerivationCount, List.map_cons, List.map_cons,
    count_walkEnds_pair (fun _ _ _ _ => List.cons.inj) steps]
  apply Finset.sum_eq_single (goal.innerCount, Tree.forestInnerCount goals)
  · -- Any other division leaves too few steps to one of the two.
    rintro ⟨before, behind⟩ member other
    have total : before + behind = goal.innerCount + Tree.forestInnerCount goals :=
      Finset.HasAntidiagonal.mem_antidiagonal.mp member
    rcases Nat.lt_trichotomy before goal.innerCount with few | rfl | many
    · rw [count_walkEnds_eq_zero few, Nat.zero_mul, Nat.mul_zero]
    · rw [Nat.add_left_cancel total] at other
      exact absurd rfl other
    · have few : behind < Tree.forestInnerCount goals := by omega
      rw [count_walkEnds_forest_eq_zero few, Nat.mul_zero, Nat.mul_zero]
  · intro absent
    rw [Finset.HasAntidiagonal.mem_antidiagonal, Tree.forestInnerCount] at absent
    exact absurd rfl absent

/-- The formula for a row follows from the formula for each of its trees. -/
theorem forestDerivationCount_mul {goals : List (Tree V)}
    (each : ∀ goal ∈ goals, derivationCount grammar goal * goal.hookProduct =
      goal.innerCount.factorial * goal.choiceProduct grammar) :
    forestDerivationCount grammar goals * (goals.map Tree.hookProduct).prod =
      (Tree.forestInnerCount goals).factorial *
        (goals.map (Tree.choiceProduct grammar)).prod := by
  induction goals with
  | nil => simp [forestDerivationCount, walkEnds, Tree.forestInnerCount]
  | cons goal goals ih =>
      have first := each goal List.mem_cons_self
      have others := ih fun other member => each other (List.mem_cons_of_mem _ member)
      have shuffles := Nat.choose_mul_factorial_mul_factorial
        (Nat.le_add_right goal.innerCount (Tree.forestInnerCount goals))
      rw [Nat.add_sub_cancel_left] at shuffles
      rw [forestDerivationCount_cons, List.map_cons, List.prod_cons, List.map_cons,
        List.prod_cons, Tree.forestInnerCount, ← shuffles]
      generalize (goal.innerCount + Tree.forestInnerCount goals).choose goal.innerCount =
        choose
      calc choose * (derivationCount grammar goal * forestDerivationCount grammar goals) *
            (goal.hookProduct * (goals.map Tree.hookProduct).prod)
          = choose * ((derivationCount grammar goal * goal.hookProduct) *
              (forestDerivationCount grammar goals * (goals.map Tree.hookProduct).prod)) := by
            ring
        _ = choose * ((goal.innerCount.factorial * goal.choiceProduct grammar) *
              ((Tree.forestInnerCount goals).factorial *
                (goals.map (Tree.choiceProduct grammar)).prod)) := by
            rw [first, others]
        _ = choose * goal.innerCount.factorial * (Tree.forestInnerCount goals).factorial *
              (goal.choiceProduct grammar * (goals.map (Tree.choiceProduct grammar)).prod) := by
            ring

/-- Once the root is expanded, only its children are rewritten. -/
theorem count_walkEnds_addChildren (symbol : Symbol) {body : List Symbol} (inner : body ≠ [])
    (count : Nat) (children : List (Tree V)) :
    (walkEnds (Tree.rewrites grammar) count
        (Tree.addChildren (body.map Tree.leaf) (Tree.leaf symbol))).count
          (.node symbol none children) =
      (walkEnds (Tree.forestRewrites grammar) count (body.map Tree.leaf)).count children := by
  have some : body.map (Tree.leaf : Symbol → Tree V) ≠ [] := by simpa using inner
  have injective : Function.Injective (Tree.node symbol none : List (Tree V) → Tree V) := by
    intro trees trees' same
    cases same
    rfl
  rw [addChildren_leaf symbol some, walkEnds_node symbol none some,
    List.count_map_of_injective _ _ injective]

/-- The root is expanded first, by any alternative that spells the children. -/
theorem derivationCount_node_cons (symbol : Symbol) (child : Tree V)
    (children : List (Tree V)) :
    derivationCount grammar (.node symbol none (child :: children)) =
      (grammar.alternatives symbol).count ((child :: children).map Tree.symbol) *
        forestDerivationCount grammar (child :: children) := by
  let further := fun body : List Symbol =>
    (walkEnds (Tree.rewrites grammar) (Tree.forestInnerCount (child :: children))
      (Tree.addChildren (body.map Tree.leaf) (Tree.leaf symbol))).count
        (.node symbol none (child :: children))
  have others : ∀ body, body ≠ (child :: children).map Tree.symbol →
      body ∈ grammar.alternatives symbol → further body = 0 := by
    intro body different _
    by_cases empty : body = []
    · rw [empty]
      exact count_walkEnds_eq_zero (Nat.lt_succ_self _)
    · refine (count_walkEnds_addChildren symbol empty _ _).trans (List.count_eq_zero.mpr ?_)
      intro member
      have symbols := map_symbol_of_mem_walkEnds member
      rw [List.map_map] at symbols
      exact different (symbols.trans (List.map_id body)).symm
  have root := count_walkEnds_succ (Tree.rewrites grammar)
    (Tree.forestInnerCount (child :: children)) (Tree.leaf symbol)
    (.node symbol none (child :: children))
  rw [Tree.leaf, Tree.rewrites, List.map_map] at root
  calc derivationCount grammar (.node symbol none (child :: children))
      = ((grammar.alternatives symbol).map further).sum := root
    _ = (grammar.alternatives symbol).count ((child :: children).map Tree.symbol) *
          further ((child :: children).map Tree.symbol) :=
        sum_map_eq_count_mul _ further others
    _ = (grammar.alternatives symbol).count ((child :: children).map Tree.symbol) *
          forestDerivationCount grammar (child :: children) :=
        congrArg _ (count_walkEnds_addChildren symbol (by simp) _ _)

/-- A derived tree without literals is reached once for each order of its expansions,
parents before children, and each choice of alternatives. -/
theorem derivationCount_mul_hookProduct {goal : Tree V} (bare : grammar.Bare goal) :
    derivationCount grammar goal * goal.hookProduct =
      goal.innerCount.factorial * goal.choiceProduct grammar := by
  induction goal using Tree.induction with
  | leaf symbol literal =>
      have unfilled := bare.unfilled _ (Tree.mem_leaves_leaf.mpr rfl)
      rw [Tree.literal] at unfilled
      subst unfilled
      have once : derivationCount grammar (.node symbol none [] : Tree V) = 1 :=
        List.count_singleton_self
      rw [once]
      rfl
  | branch symbol literal child children ih =>
      rcases bare.derived with _ | _
      have row := forestDerivationCount_mul fun tree member => ih tree member (bare.child member)
      rw [derivationCount_node_cons, Tree.hookProduct_node_cons, Tree.choiceProduct_node_cons,
        Tree.innerCount, Nat.factorial_succ]
      generalize (grammar.alternatives symbol).count ((child :: children).map Tree.symbol) =
        choices
      generalize Tree.forestInnerCount (child :: children) = below at row
      calc choices * forestDerivationCount grammar (child :: children) *
            ((below + 1) * ((child :: children).map Tree.hookProduct).prod)
          = choices * (below + 1) * (forestDerivationCount grammar (child :: children) *
              ((child :: children).map Tree.hookProduct).prod) := by
            ring
        _ = choices * (below + 1) * (below.factorial *
              ((child :: children).map (Tree.choiceProduct grammar)).prod) := by
            rw [row]
        _ = (below + 1) * below.factorial *
              (choices * ((child :: children).map (Tree.choiceProduct grammar)).prod) := by
            ring

end Count

/-! ## Where a tree stands among the levels -/

/-- Without an empty alternative within reach, every rewriting adds an inner node. -/
theorem innerCount_eq_of_mem_level
    (full : ∀ symbol, grammar.Reachable symbol → [] ∉ grammar.alternatives symbol)
    {count : Nat} {sketch : Tree V} (member : sketch ∈ grammar.level count) :
    sketch.innerCount = count := by
  induction count generalizing sketch with
  | zero =>
      rw [List.mem_singleton.mp member]
      rfl
  | succ count ih =>
      rcases List.mem_flatMap.mp member with ⟨earlier, among, rewriting⟩
      rcases expands_of_mem_rewrites rewriting with ⟨left, leaf, right, body, expands⟩
      have inner : body ≠ [] := by
        rintro rfl
        have reachable := reachable_of_mem_level among leaf expands.mem_leaves
        exact full leaf.symbol reachable expands.alternative
      rw [expands.grown inner, ih among]

/-- All copies of a sketch then stand in the level of its number of inner nodes. -/
theorem count_levelsBelow [DecidableEq V]
    (full : ∀ symbol, grammar.Reachable symbol → [] ∉ grammar.alternatives symbol)
    {goal : Tree V} (root : goal.symbol = grammar.start) {count : Nat}
    (below : goal.innerCount < count) :
    (grammar.levelsBelow count).count goal = derivationCount grammar goal := by
  have others : ∀ other, other ≠ goal.innerCount → other ∈ List.range count →
      (grammar.level other).count goal = 0 := by
    intro other different _
    apply List.count_eq_zero.mpr
    intro member
    exact different (innerCount_eq_of_mem_level full member).symm
  calc (grammar.levelsBelow count).count goal
      = ((List.range count).map fun other => (grammar.level other).count goal).sum :=
        List.count_flatMap
    _ = (List.range count).count goal.innerCount *
          (grammar.level goal.innerCount).count goal :=
        sum_map_eq_count_mul _ _ others
    _ = (grammar.level goal.innerCount).count goal := by
        rw [List.count_eq_one_of_mem List.nodup_range (List.mem_range.mpr below), Nat.one_mul]
    _ = derivationCount grammar goal := by
        rw [level_eq_walkEnds, ← root]
        rfl

end Grammar
end ProgramSearch
