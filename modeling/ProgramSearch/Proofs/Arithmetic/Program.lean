import ProgramSearch.Proofs.Arithmetic.Grammar
import ProgramSearch.Search

namespace ProgramSearch

/-!
# Arithmetic programs are expressions

A program of the arithmetic is a start node over the tree of an expression, with constants
and positions that are on offer, and every such expression gives a program.  So there are
programs at all, and the grammar is accepted whatever the constants are.  The number of a
program's inner nodes is determined by the number of its operations.
-/

namespace Grammar

variable {grammar : Grammar} {filler : Filler Int64} {sample : Sample Int64}

namespace Completed

theorem leaf {symbol : Symbol} {literal : Option Int64}
    (terminal : grammar.isTerminal symbol = true)
    (carried : CarriesOffered (filler symbol sample) literal) :
    grammar.Completed filler sample (.node symbol literal []) where
  filled := .leaf carried
  terminal := by
    intro leaf only
    rw [Tree.mem_leaves_leaf.mp only]
    exact terminal

theorem branch {symbol : Symbol} {children : List (Tree Int64)} (inner : children ≠ [])
    (spelled : children.map Tree.symbol ∈ grammar.alternatives symbol)
    (below : ∀ child ∈ children, grammar.Completed filler sample child) :
    grammar.Completed filler sample (.node symbol none children) where
  filled := .branch inner spelled fun child member => (below child member).filled
  terminal := by
    intro leaf member
    rcases (Tree.mem_leaves_node inner).mp member with ⟨child, among, under⟩
    exact (below child among).terminal leaf under

theorem child {symbol : Symbol} {literal : Option Int64} {children : List (Tree Int64)}
    (completed : grammar.Completed filler sample (.node symbol literal children))
    {child : Tree Int64} (member : child ∈ children) :
    grammar.Completed filler sample child := by
  have inner : children ≠ [] := List.ne_nil_of_mem member
  refine ⟨⟨completed.filled.derived.child member, ?_⟩, ?_⟩ <;> intro leaf below
  · exact completed.filled.carried leaf ((Tree.mem_leaves_node inner).mpr ⟨child, member, below⟩)
  · exact completed.terminal leaf ((Tree.mem_leaves_node inner).mpr ⟨child, member, below⟩)

/-- Below a terminal there is nothing. -/
theorem eq_leaf_of_terminal {tree : Tree Int64} (completed : grammar.Completed filler sample tree)
    (terminal : grammar.isTerminal tree.symbol = true) :
    ∃ literal, tree = .node tree.symbol literal [] ∧
      CarriesOffered (filler tree.symbol sample) literal := by
  rcases completed.filled with ⟨_ | ⟨symbol, children, _, spelled, _⟩, carried⟩
  · exact ⟨_, rfl, carried _ (Tree.mem_leaves_leaf.mpr rfl)⟩
  · rw [Tree.symbol, isTerminal_iff] at terminal
    rw [terminal.2] at spelled
    cases spelled

/-- Below a nonterminal there is an alternative of it. -/
theorem exists_children_of_nonterminal {tree : Tree Int64}
    (completed : grammar.Completed filler sample tree)
    (nonterminal : ¬ grammar.isTerminal tree.symbol = true) :
    ∃ children, tree = .node tree.symbol none children ∧
      children.map Tree.symbol ∈ grammar.alternatives tree.symbol := by
  rcases completed.filled.derived with ⟨symbol, literal⟩ | ⟨symbol, children, _, spelled, _⟩
  · exact absurd (completed.terminal _ (Tree.mem_leaves_leaf.mpr rfl)) nonterminal
  · exact ⟨children, rfl, spelled⟩

end Completed

end Grammar

namespace Arithmetic

variable (arithmetic : Arithmetic)

/-- The number of arguments that parameters may refer to. -/
def argumentCount (sample : Sample Int64) : Nat :=
  if arithmetic.withParameters then sample.inputCount else 0

/-- There is a literal for every leaf. -/
structure Provided (sample : Sample Int64) : Prop where
  constants : arithmetic.constants ≠ []
  inputs : arithmetic.withParameters = true → sample.inputs ≠ []

variable {arithmetic} {sample : Sample Int64}

/-! ## Expressions give programs -/

theorem completed_tree {expression : Expression}
    (drawn : expression.Over arithmetic.constants (arithmetic.argumentCount sample)) :
    arithmetic.grammar.Completed arithmetic.filler sample (expression.tree arithmetic) := by
  induction drawn with
  | constant member =>
      apply Grammar.Completed.branch (List.cons_ne_nil _ _)
      · rw [alternatives_symbol]
        exact List.mem_map_of_mem (arithmetic.mem_bodies_exp.mpr (Or.inr (Or.inl rfl)))
      · rw [List.forall_mem_singleton]
        apply Grammar.Completed.leaf ((arithmetic.isTerminal_symbol _).mpr (Or.inl rfl))
        rw [filler_const]
        exact member
  | @parameter index natural within =>
      have allowed : arithmetic.withParameters = true := by
        by_contra none
        rw [argumentCount, if_neg none] at within
        omega
      rw [argumentCount, if_pos allowed] at within
      apply Grammar.Completed.branch (List.cons_ne_nil _ _)
      · rw [alternatives_symbol]
        exact List.mem_map_of_mem (arithmetic.mem_bodies_exp.mpr (Or.inr (Or.inr ⟨allowed, rfl⟩)))
      · rw [List.forall_mem_singleton]
        apply Grammar.Completed.leaf ((arithmetic.isTerminal_symbol _).mpr (Or.inr rfl))
        exact (arithmetic.mem_filler_param).mpr ⟨natural, within⟩
  | @operation operator left right _ _ onLeft onRight =>
      apply Grammar.Completed.branch (List.cons_ne_nil _ _)
      · rw [alternatives_symbol]
        exact List.mem_map_of_mem (arithmetic.mem_bodies_exp.mpr (Or.inl ⟨operator, rfl⟩))
      · rw [List.forall_mem_singleton]
        apply Grammar.Completed.branch (List.cons_ne_nil _ _)
        · have symbols : [left.tree arithmetic, right.tree arithmetic].map Tree.symbol =
              [Category.exp, Category.exp].map arithmetic.symbol := by
            cases left <;> cases right <;> rfl
          rw [alternatives_symbol, bodies_operation, symbols]
          exact List.mem_cons_self
        · exact List.forall_mem_cons.mpr ⟨onLeft, List.forall_mem_singleton.mpr onRight⟩

theorem symbol_tree (expression : Expression) :
    (expression.tree arithmetic).symbol = arithmetic.symbol .exp := by
  cases expression <;> rfl

theorem isProgram_program {expression : Expression}
    (drawn : expression.Over arithmetic.constants (arithmetic.argumentCount sample)) :
    arithmetic.grammar.IsProgram arithmetic.filler sample (expression.program arithmetic) := by
  have completed : arithmetic.grammar.Completed arithmetic.filler sample
      (expression.program arithmetic) := by
    apply Grammar.Completed.branch (List.cons_ne_nil _ _)
    · rw [List.map_singleton, symbol_tree, alternatives_symbol, bodies_start]
      exact List.mem_cons_self
    · exact (List.forall_mem_singleton).mpr (completed_tree drawn)
  refine ⟨?_, completed.filled.derived, completed.terminal, completed.filled.carried⟩
  rw [start_grammar]
  rfl

/-! ## Programs are expressions -/

section Reading

variable {tree : Tree Int64} {category : Category}
  (completed : arithmetic.grammar.Completed arithmetic.filler sample tree)

include completed

/-- A completed tree of a nonterminal category has children for one of its bodies. -/
theorem exists_body (root : tree.symbol = arithmetic.symbol category)
    (noConstant : category ≠ .const) (noParameter : category ≠ .param) :
    ∃ children, tree = .node (arithmetic.symbol category) none children ∧
      ∃ body ∈ arithmetic.bodies category,
        children.map Tree.symbol = body.map arithmetic.symbol := by
  have nonterminal : ¬ arithmetic.grammar.isTerminal tree.symbol = true := by
    rw [root, isTerminal_symbol]
    exact not_or.mpr ⟨noConstant, noParameter⟩
  rcases completed.exists_children_of_nonterminal nonterminal with ⟨children, same, spelled⟩
  rw [root] at same spelled
  rw [alternatives_symbol] at spelled
  rcases List.mem_map.mp spelled with ⟨body, among, symbols⟩
  exact ⟨children, same, body, among, symbols.symm⟩

theorem exists_constant (provided : arithmetic.Provided sample)
    (root : tree.symbol = arithmetic.symbol .const) :
    ∃ word ∈ arithmetic.constants, tree = .node (arithmetic.symbol .const) (some word) [] := by
  rcases completed.eq_leaf_of_terminal
    (root ▸ (arithmetic.isTerminal_symbol .const).mpr (Or.inl rfl)) with
    ⟨literal, same, carried⟩
  rw [root] at same carried
  rw [filler_const] at carried
  cases literal with
  | none => exact absurd carried provided.constants
  | some word => exact ⟨word, carried, same⟩

theorem exists_parameter (provided : arithmetic.Provided sample)
    (allowed : arithmetic.withParameters = true)
    (root : tree.symbol = arithmetic.symbol .param) :
    ∃ index : Int64, 0 ≤ index.toInt ∧ index.toInt < sample.inputCount ∧
      tree = .node (arithmetic.symbol .param) (some index) [] := by
  rcases completed.eq_leaf_of_terminal
    (root ▸ (arithmetic.isTerminal_symbol .param).mpr (Or.inr rfl)) with
    ⟨literal, same, carried⟩
  rw [root] at same carried
  cases literal with
  | none =>
      -- The first input has a position, so something is on offer.
      have first : (0 : Int64) ∈ arithmetic.filler (arithmetic.symbol .param) sample := by
        rw [mem_filler_param]
        exact ⟨Int.le_refl _,
          Int.natCast_pos.mpr (List.length_pos_iff.mpr (provided.inputs allowed))⟩
      rw [show arithmetic.filler (arithmetic.symbol .param) sample = [] from carried] at first
      cases first
  | some index =>
      have within := (arithmetic.mem_filler_param).mp carried
      exact ⟨index, within.1, within.2, same⟩

end Reading

/-- A completed tree below an `exp` node is that of an expression, and the children of an
operation are two of them. -/
theorem exists_expression (provided : arithmetic.Provided sample) (tree : Tree Int64)
    (completed : arithmetic.grammar.Completed arithmetic.filler sample tree) :
    (tree.symbol = arithmetic.symbol .exp →
      ∃ expression : Expression,
        expression.Over arithmetic.constants (arithmetic.argumentCount sample) ∧
          tree = expression.tree arithmetic) ∧
    ∀ operator : BinaryOperator, tree.symbol = arithmetic.symbol operator.category →
      ∃ left right : Expression,
        left.Over arithmetic.constants (arithmetic.argumentCount sample) ∧
          right.Over arithmetic.constants (arithmetic.argumentCount sample) ∧
            tree = .node (arithmetic.symbol operator.category) none
              [left.tree arithmetic, right.tree arithmetic] := by
  induction tree using Tree.induction with
  | leaf symbol literal =>
      have terminal := completed.terminal _ (Tree.mem_leaves_leaf.mpr rfl)
      constructor
      · intro root
        rw [root, isTerminal_symbol] at terminal
        rcases terminal with impossible | impossible <;> cases impossible
      · intro operator root
        rw [root, isTerminal_symbol] at terminal
        rcases terminal with impossible | impossible <;> cases operator <;> cases impossible
  | branch symbol literal first others ih =>
      constructor
      · intro root
        rcases exists_body completed root (by decide) (by decide) with
          ⟨children, same, body, among, symbols⟩
        cases same
        rcases arithmetic.mem_bodies_exp.mp among with ⟨operator, rfl⟩ | rfl | ⟨allowed, rfl⟩ <;>
          rcases List.map_eq_singleton_iff.mp symbols with ⟨child, only, childRoot⟩ <;>
          cases only <;>
          have below := completed.child List.mem_cons_self
        · rcases (ih first List.mem_cons_self below).2 operator childRoot with
            ⟨left, right, onLeft, onRight, rfl⟩
          exact ⟨.operation operator left right, .operation onLeft onRight, rfl⟩
        · rcases exists_constant below provided childRoot with ⟨word, member, rfl⟩
          exact ⟨.constant word, .constant member, rfl⟩
        · rcases exists_parameter below provided allowed childRoot with
            ⟨index, natural, within, rfl⟩
          refine ⟨.parameter index, .parameter natural ?_, rfl⟩
          rw [argumentCount, if_pos allowed]
          exact within
      · intro operator root
        rcases exists_body completed root (by cases operator <;> decide)
          (by cases operator <;> decide) with ⟨children, same, body, among, symbols⟩
        cases same
        rw [bodies_operation, List.mem_singleton] at among
        subst among
        rcases List.map_eq_cons_iff.mp symbols with ⟨left, rest, both, leftRoot, symbols⟩
        rcases List.map_eq_singleton_iff.mp symbols with ⟨right, only, rightRoot⟩
        cases only
        cases both
        rcases (ih first List.mem_cons_self (completed.child List.mem_cons_self)).1 leftRoot with
          ⟨onLeft, overLeft, rfl⟩
        have last : right ∈ [onLeft.tree arithmetic, right] :=
          List.mem_cons_of_mem _ List.mem_cons_self
        rcases (ih right last (completed.child last)).1 rightRoot with ⟨onRight, overRight, rfl⟩
        exact ⟨onLeft, onRight, overLeft, overRight, rfl⟩

/-- The programs of the arithmetic are the expressions over what is on offer. -/
theorem isProgram_iff (provided : arithmetic.Provided sample) {program : Tree Int64} :
    arithmetic.grammar.IsProgram arithmetic.filler sample program ↔
      ∃ expression : Expression,
        expression.Over arithmetic.constants (arithmetic.argumentCount sample) ∧
          program = expression.program arithmetic := by
  constructor
  · intro isProgram
    have completed : arithmetic.grammar.Completed arithmetic.filler sample program :=
      ⟨⟨isProgram.derived, isProgram.filled⟩, isProgram.terminal⟩
    have root : program.symbol = arithmetic.symbol .start := by
      rw [isProgram.root, start_grammar]
    rcases exists_body completed root (by decide) (by decide) with
      ⟨children, rfl, body, among, symbols⟩
    rw [bodies_start, List.mem_singleton] at among
    subst among
    rcases List.map_eq_singleton_iff.mp symbols with ⟨child, rfl, childRoot⟩
    rcases (exists_expression provided child (completed.child List.mem_cons_self)).1 childRoot
      with ⟨expression, drawn, rfl⟩
    exact ⟨expression, drawn, rfl⟩
  · rintro ⟨expression, drawn, rfl⟩
    exact isProgram_program drawn

/-! ## Counting -/

/-- Every operation has a wrapper, and so has every leaf, of which there is one more. -/
theorem innerCount_tree (expression : Expression) :
    (expression.tree arithmetic).innerCount = 3 * expression.operationCount + 1 := by
  induction expression with
  | constant word => rfl
  | parameter index => rfl
  | operation operator left right onLeft onRight =>
      rw [Expression.tree, Tree.innerCount_node (List.cons_ne_nil _ _), Tree.forestInnerCount,
        Tree.forestInnerCount, Tree.innerCount_node (List.cons_ne_nil _ _), Tree.forestInnerCount,
        Tree.forestInnerCount, Tree.forestInnerCount, onLeft, onRight, Expression.operationCount]
      omega

theorem innerCount_program (expression : Expression) :
    (expression.program arithmetic).innerCount = 3 * expression.operationCount + 2 := by
  rw [Expression.program, Tree.innerCount_node (List.cons_ne_nil _ _), Tree.forestInnerCount,
    Tree.forestInnerCount, innerCount_tree]

theorem operationCount_tree (expression : Expression) :
    arithmetic.operationCount (expression.tree arithmetic) = expression.operationCount := by
  induction expression with
  | constant word =>
      simp [Expression.tree, operationCount, forestOperationCount, Category.role,
        Expression.operationCount]
  | parameter index =>
      simp [Expression.tree, operationCount, forestOperationCount, Category.role,
        Expression.operationCount]
  | operation operator left right onLeft onRight =>
      simp only [Expression.tree, operationCount, forestOperationCount, role?_symbol,
        BinaryOperator.role_category, onLeft, onRight, Expression.operationCount]
      simp only [Category.role]
      omega

theorem operationCount_program (expression : Expression) :
    arithmetic.operationCount (expression.program arithmetic) = expression.operationCount := by
  simp [Expression.program, operationCount, forestOperationCount, Category.role,
    operationCount_tree]

/-! ## The grammar is accepted -/

theorem validate_grammar (arithmetic : Arithmetic) : arithmetic.grammar.validate = .ok () := by
  have native : ∀ name, arithmetic.grammar.validate ≠ .error (.foreignSymbol name) := by
    intro name
    have own : ∀ step ∈ arithmetic.steps, ∀ symbol ∈ step.symbols,
        symbol.owner = arithmetic.identity := by
      intro step member symbol among
      rcases arithmetic.exists_category_of_mem_symbols member among with ⟨category, rfl⟩
      rfl
    rw [grammar_eq_build]
    exact Grammar.validate_ne_foreignSymbol own arithmetic.refersBack_steps name
  have headed : ∀ symbol, arithmetic.grammar.alternatives symbol ≠ [] →
      symbol ∈ arithmetic.grammar.heads := by
    intro symbol
    rw [grammar_eq_build]
    exact (Grammar.mem_heads_build _ _ _ symbol).mpr
  have owned : ∀ head ∈ arithmetic.grammar.heads, arithmetic.grammar.owns head = true := by
    rw [grammar_eq_build]
    exact Grammar.owns_of_mem_heads_build
  -- A constant makes a program, if only some literal is on offer.
  let anyConstant : Arithmetic := ⟨arithmetic.identity, [0], arithmetic.withParameters⟩
  have drawn : (Expression.constant 0).Over anyConstant.constants
      (anyConstant.argumentCount ⟨0, []⟩) := .constant List.mem_cons_self
  have isProgram := isProgram_program drawn
  rw [show anyConstant.grammar = arithmetic.grammar from rfl] at isProgram
  rw [Grammar.validate_eq_ok_iff owned native, ← isProgram.root]
  exact Grammar.settled_of_derived headed isProgram.derived isProgram.terminal

/-- Synthesis over the language of the arithmetic. -/
def synthesizer (arithmetic : Arithmetic) (budget : Budget) : Synthesizer Int64 :=
  ⟨arithmetic.language, budget, arithmetic.validate_grammar⟩

theorem create_language (arithmetic : Arithmetic) (budget : Budget) :
    Synthesizer.create arithmetic.language budget = .ok (arithmetic.synthesizer budget) :=
  (Synthesizer.create_eq_ok_iff _ _ _).mpr ⟨rfl, rfl⟩

end Arithmetic

end ProgramSearch
