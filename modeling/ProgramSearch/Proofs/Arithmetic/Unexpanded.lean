import ProgramSearch.Proofs.Arithmetic.Exactness

namespace ProgramSearch

/-!
# Trees with unexpanded leaves

No tree with a leaf that the grammar can still expand has a value.  The evaluator says so only
if nothing fails before it comes to such a leaf.  A part that fails further to the left is
reported instead, and one further to the right is not.
-/

namespace Arithmetic

variable {arithmetic : Arithmetic} {env : Env Int64} {tree : Tree Int64}

/-- The leaves of a tree with a value are constants and parameters, as long as only leaves carry
literals. -/
theorem HasValue.terminal_leaves {value : Int} (has : arithmetic.HasValue env tree value)
    (rule : tree.literalsOnLeaves = true) :
    ∀ leaf ∈ tree.leaves, arithmetic.grammar.isTerminal leaf.symbol = true := by
  induction has with
  | wrapper role _ ih =>
      intro leaf member
      rcases (Tree.mem_leaves_node (List.cons_ne_nil _ _)).mp member with ⟨child, among, below⟩
      cases List.mem_singleton.mp among
      exact ih ((Tree.literalsOnLeaves_node.mp rule).2 _ among) leaf below
  | operation role _ _ _ onLeft onRight =>
      intro leaf member
      have rules := (Tree.literalsOnLeaves_node.mp rule).2
      rcases (Tree.mem_leaves_node (List.cons_ne_nil _ _)).mp member with ⟨child, among, below⟩
      rcases List.mem_pair.mp among with rfl | rfl
      · exact onLeft (rules _ among) leaf below
      · exact onRight (rules _ among) leaf below
  | constant role =>
      cases eq_nil_of_literal rule
      intro leaf member
      cases Tree.mem_leaves_leaf.mp member
      rw [Tree.symbol, eq_symbol_of_category (category_of_constant role), isTerminal_symbol]
      exact Or.inl rfl
  | parameter role _ _ =>
      cases eq_nil_of_literal rule
      intro leaf member
      cases Tree.mem_leaves_leaf.mp member
      rw [Tree.symbol, eq_symbol_of_category (category_of_parameter role), isTerminal_symbol]
      exact Or.inr rfl

/-- A built tree with an unexpanded leaf has no value.  The evaluator says so if and only if it
comes to no part that fails, and otherwise reports the part that it comes to. -/
theorem unexpanded_answers (built : tree.Built)
    (unexpanded : tree.nonterminalLeaves arithmetic.grammar ≠ []) :
    (∀ word, arithmetic.evaluate tree env ≠ .ok (some word)) ∧
      (arithmetic.evaluate tree env = .ok none ↔
        ∀ part error, arithmetic.ComesTo env tree part → ¬ arithmetic.Fails env part error) ∧
        ∀ error, arithmetic.evaluate tree env = .error error ↔
          ∃ part, arithmetic.ComesTo env tree part ∧ arithmetic.Fails env part error := by
  have valueless : ∀ word, arithmetic.evaluate tree env ≠ .ok (some word) := by
    intro word evaluated
    have has : arithmetic.HasValue env tree word.toInt := evaluate_eq_iff.mp evaluated
    have terminal := has.terminal_leaves built.literalsOnLeaves
    apply unexpanded
    rw [Tree.nonterminalLeaves, List.filter_eq_nil_iff]
    intro leaf member
    rw [Grammar.isNonterminal, terminal leaf member]
    exact Bool.false_ne_true
  have failing : ∀ error, arithmetic.evaluate tree env = .error error ↔
      ∃ part, arithmetic.ComesTo env tree part ∧ arithmetic.Fails env part error :=
    fun error => evaluate_eq_iff
  refine ⟨valueless, ⟨?_, ?_⟩, failing⟩
  · intro lacking part error comes fails
    rw [(failing error).mpr ⟨part, comes, fails⟩] at lacking
    cases lacking
  · intro sound
    rcases cases_of_no_value valueless with lacking | ⟨error, failed⟩
    · exact lacking
    · rcases (failing error).mp failed with ⟨part, comes, fails⟩
      exact absurd fails (sound part error comes)

/-! ## An operand that fails beside one that is not expanded -/

/-- The arithmetic over two and the greatest word. -/
def overGreatest : Arithmetic :=
  ⟨0, [2, Int64.maxValue], false⟩

/-- An operand that fails, twice the greatest word. -/
def failingOperand : Tree Int64 :=
  (Expression.operation .mult (.constant Int64.maxValue) (.constant 2)).tree overGreatest

/-- An operand that is not expanded. -/
def openOperand : Tree Int64 :=
  .leaf (overGreatest.symbol .exp)

/-- The sum of two operands. -/
def sumSketch (left right : Tree Int64) : Tree Int64 :=
  .node (overGreatest.symbol .start) none
    [.node (overGreatest.symbol .exp) none [.node (overGreatest.symbol .add) none [left, right]]]

/-- The evaluator comes to the operand that fails only if it stands on the left. -/
theorem unexpanded_answers_sides :
    (∃ part, overGreatest.ComesTo ⟨[]⟩ (sumSketch failingOperand openOperand) part ∧
      overGreatest.Fails ⟨[]⟩ part
        (ArithmeticFault.overflow .mult Int64.maxValue 2).toError) ∧
      ∀ part error, overGreatest.ComesTo ⟨[]⟩ (sumSketch openOperand failingOperand) part →
        ¬ overGreatest.Fails ⟨[]⟩ part error := by
  have builtLeft : (sumSketch failingOperand openOperand).Built := Tree.built_iff.mpr rfl
  have builtRight : (sumSketch openOperand failingOperand).Built := Tree.built_iff.mpr rfl
  exact ⟨((unexpanded_answers builtLeft (by decide)).2.2 _).mp (by decide),
    (unexpanded_answers builtRight (by decide)).2.1.mp (by decide)⟩

/-- A sketch of the grammar with an unexpanded leaf for which the evaluator reports an error.
With its operands exchanged it has none. -/
theorem fault_beside_unexpanded :
    (sumSketch failingOperand openOperand).Built ∧
      ((sumSketch failingOperand openOperand).Everywhere fun part =>
        overGreatest.grammar.owns part.symbol = true) ∧
      (sumSketch failingOperand openOperand).nonterminalLeaves overGreatest.grammar ≠ [] ∧
      overGreatest.evaluate (sumSketch failingOperand openOperand) ⟨[]⟩ =
        .error (ArithmeticFault.overflow .mult Int64.maxValue 2).toError ∧
      overGreatest.evaluate (sumSketch openOperand failingOperand) ⟨[]⟩ = .ok none := by
  refine ⟨Tree.built_iff.mpr rfl, ?_, by decide, by decide, by decide⟩
  simp [sumSketch, failingOperand, openOperand, Expression.tree, Tree.leaf, Tree.symbol,
    Tree.everywhere_node, owns_symbol]

end Arithmetic

end ProgramSearch
