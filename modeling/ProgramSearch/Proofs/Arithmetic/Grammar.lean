import ProgramSearch.Arithmetic.Expression
import ProgramSearch.Proofs.Grammar.Classification

namespace ProgramSearch

/-!
# The grammar of the arithmetic

The grammar is built from its categories and rules, and so it can be read back to them: the
alternatives of a category are the bodies of its rules, and only constants and parameters are
terminals.  No rule refers to a symbol of another grammar.
-/

namespace Grammar

theorem refersBack_symbols_append {grammar : Grammar} {names : List String}
    {steps : List GrammarStep}
    (later : ((names.map GrammarStep.symbol).foldl extend grammar).RefersBack steps) :
    grammar.RefersBack (names.map GrammarStep.symbol ++ steps) := by
  induction names generalizing grammar with
  | nil => exact later
  | cons name names ih =>
      constructor
      · intro symbol impossible
        cases impossible
      · exact ih later

theorem refersBack_of_owned {grammar : Grammar} {steps : List GrammarStep}
    (owned : ∀ step ∈ steps, ∀ symbol ∈ step.symbols, grammar.owns symbol = true) :
    grammar.RefersBack steps := by
  induction steps generalizing grammar with
  | nil => exact trivial
  | cons step steps ih =>
      constructor
      · intro symbol member _
        exact owned step List.mem_cons_self symbol member
      · apply ih
        intro later among symbol member
        exact owns_foldl_extend (owned later (List.mem_cons_of_mem _ among) symbol member) [step]

end Grammar

@[simp] theorem BinaryOperator.role_category (operator : BinaryOperator) :
    operator.category.role = .binary operator := by
  cases operator <;> rfl

theorem Category.position_of_ofPosition? {position : Nat} {category : Category}
    (known : Category.ofPosition? position = some category) : category.position = position := by
  unfold Category.ofPosition? at known
  split at known <;> cases known <;> rfl

namespace Arithmetic

variable (arithmetic : Arithmetic)

/-! ## Symbols -/

@[simp] theorem category?_symbol (category : Category) :
    arithmetic.category? (arithmetic.symbol category) = some category := by
  rw [category?, symbol, if_pos rfl, Category.ofPosition?_position]

@[simp] theorem role?_symbol (category : Category) :
    arithmetic.role? (arithmetic.symbol category) = some category.role := by
  rw [role?, category?_symbol, Option.map_some]

/-- Different categories have different symbols. -/
@[simp] theorem symbol_inj {category other : Category} :
    arithmetic.symbol category = arithmetic.symbol other ↔ category = other := by
  constructor
  · intro same
    have read := congrArg arithmetic.category? same
    rw [category?_symbol, category?_symbol] at read
    exact Option.some.inj read
  · rintro rfl
    rfl

section Category

variable {arithmetic} {symbol : Symbol}

/-- A category has no other symbol than its own. -/
theorem eq_symbol_of_category {category : Category}
    (known : arithmetic.category? symbol = some category) :
    symbol = arithmetic.symbol category := by
  rcases symbol with ⟨owner, position⟩
  rw [category?] at known
  split at known
  · rename_i own
    rw [Arithmetic.symbol, Category.position_of_ofPosition? known, ← own]
  · cases known

theorem exists_category_of_role {role : Role} (known : arithmetic.role? symbol = some role) :
    ∃ category, arithmetic.category? symbol = some category ∧ category.role = role :=
  Option.map_eq_some_iff.mp known

theorem role_of_category {category : Category}
    (known : arithmetic.category? symbol = some category) :
    arithmetic.role? symbol = some category.role := by
  rw [role?, known, Option.map_some]

theorem category_of_operation {operator : BinaryOperator}
    (role : arithmetic.role? symbol = some (.binary operator)) :
    arithmetic.category? symbol = some operator.category := by
  rcases exists_category_of_role role with ⟨category, known, plays⟩
  rw [known]
  cases category <;> cases plays <;> rfl

theorem category_of_constant (role : arithmetic.role? symbol = some .constant) :
    arithmetic.category? symbol = some .const := by
  rcases exists_category_of_role role with ⟨category, known, plays⟩
  cases category <;> cases plays
  exact known

theorem category_of_parameter (role : arithmetic.role? symbol = some .parameter) :
    arithmetic.category? symbol = some .param := by
  rcases exists_category_of_role role with ⟨category, known, plays⟩
  cases category <;> cases plays
  exact known

end Category

/-! ## Rules -/

/-- The steps in which the grammar is built. -/
def steps : List GrammarStep :=
  (Category.others.map Category.name).map GrammarStep.symbol ++
    arithmetic.rules.map fun rule =>
      .rule (arithmetic.symbol rule.1) (rule.2.map arithmetic.symbol)

theorem grammar_eq_build :
    arithmetic.grammar =
      Grammar.build arithmetic.identity Category.start.name arithmetic.steps := by
  rw [Grammar.build, steps, List.foldl_append, List.foldl_map, List.foldl_map, List.foldl_map]
  rfl

theorem owns_vocabulary (category : Category) :
    arithmetic.vocabulary.owns (arithmetic.symbol category) = true := by
  have native : arithmetic.vocabulary.identity = arithmetic.identity := rfl
  rw [Grammar.owns, Grammar.entryOf?, symbol, native, if_pos rfl]
  cases category <;> rfl

theorem exists_category_of_mem_symbols {step : GrammarStep} (member : step ∈ arithmetic.steps)
    {symbol : Symbol} (among : symbol ∈ step.symbols) :
    ∃ category, symbol = arithmetic.symbol category := by
  rcases List.mem_append.mp member with minting | adding
  · rcases List.mem_map.mp minting with ⟨name, _, rfl⟩
    cases among
  · rcases List.mem_map.mp adding with ⟨⟨head, body⟩, _, rfl⟩
    rcases List.mem_cons.mp among with rfl | inside
    · exact ⟨head, rfl⟩
    · rcases List.mem_map.mp inside with ⟨category, _, rfl⟩
      exact ⟨category, rfl⟩

theorem refersBack_steps :
    (Grammar.create arithmetic.identity Category.start.name).RefersBack arithmetic.steps := by
  apply Grammar.refersBack_symbols_append
  apply Grammar.refersBack_of_owned
  intro step member symbol among
  rcases arithmetic.exists_category_of_mem_symbols (List.mem_append_right _ member) among with
    ⟨category, rfl⟩
  exact arithmetic.owns_vocabulary category

theorem owns_symbol (category : Category) :
    arithmetic.grammar.owns (arithmetic.symbol category) = true := by
  rw [grammar_eq_build, Grammar.build, steps, List.foldl_append]
  exact Grammar.owns_foldl_extend (arithmetic.owns_vocabulary category) _

/-- Every category is printed under its own name. -/
theorem name_symbol (category : Category) :
    arithmetic.grammar.name (arithmetic.symbol category) = category.name := by
  have native : arithmetic.vocabulary.identity = arithmetic.identity := rfl
  have minted : arithmetic.vocabulary.name (arithmetic.symbol category) = category.name := by
    rw [Grammar.name, Grammar.entryOf?, symbol, native, if_pos rfl]
    cases category <;> rfl
  rw [grammar_eq_build, Grammar.build, steps, List.foldl_append, ← minted]
  exact Grammar.name_foldl_extend (arithmetic.owns_vocabulary category) _

/-- The bodies of the rules of a category, in order. -/
def bodies (category : Category) : List (List Category) :=
  arithmetic.rules.filterMap fun rule => if rule.1 = category then some rule.2 else none

/-- The alternatives of a category are the bodies of its rules. -/
theorem alternatives_symbol (category : Category) :
    arithmetic.grammar.alternatives (arithmetic.symbol category) =
      (arithmetic.bodies category).map (List.map arithmetic.symbol) := by
  have records := Grammar.records_build arithmetic.refersBack_steps
  have own := Grammar.owner_of_owns (arithmetic.owns_symbol category)
  rw [grammar_eq_build] at own ⊢
  have minting : ((Category.others.map Category.name).map GrammarStep.symbol).filterMap
      (GrammarStep.bodyOf? (arithmetic.symbol category)) = [] := rfl
  rw [records.alternatives _ own, bodies, steps, List.filterMap_append, minting,
    List.nil_append, List.filterMap_map, List.map_filterMap]
  apply List.filterMap_congr
  intro rule _
  rw [Function.comp_apply, GrammarStep.bodyOf?]
  by_cases here : rule.1 = category <;> simp [here]

theorem start_grammar : arithmetic.grammar.start = arithmetic.symbol .start := by
  rw [grammar_eq_build, Grammar.start, Grammar.identity_build]
  rfl

@[simp] theorem bodies_start : arithmetic.bodies .start = [[.exp]] := by
  rcases arithmetic with ⟨identity, constants, _ | _⟩ <;> rfl

@[simp] theorem bodies_operation (operator : BinaryOperator) :
    arithmetic.bodies operator.category = [[.exp, .exp]] := by
  rcases arithmetic with ⟨identity, constants, _ | _⟩ <;> cases operator <;> rfl

/-- An expression is an operation, a constant or a parameter. -/
theorem mem_bodies_exp {body : List Category} :
    body ∈ arithmetic.bodies .exp ↔
      (∃ operator : BinaryOperator, body = [operator.category]) ∨ body = [.const] ∨
        arithmetic.withParameters = true ∧ body = [.param] := by
  have operators : (∃ operator : BinaryOperator, body = [operator.category]) ↔
      body = [.add] ∨ body = [.minus] ∨ body = [.mult] := by
    constructor
    · rintro ⟨_ | _ | _, rfl⟩ <;> simp [BinaryOperator.category]
    · rintro (rfl | rfl | rfl)
      exacts [⟨.add, rfl⟩, ⟨.minus, rfl⟩, ⟨.mult, rfl⟩]
  rw [operators]
  rcases arithmetic with ⟨identity, constants, _ | _⟩ <;>
    simp [bodies, rules, or_assoc]

theorem isTerminal_symbol (category : Category) :
    arithmetic.grammar.isTerminal (arithmetic.symbol category) = true ↔
      category = .const ∨ category = .param := by
  rw [Grammar.isTerminal_iff, start_grammar, alternatives_symbol, List.map_eq_nil_iff]
  rcases arithmetic with ⟨identity, constants, _ | _⟩ <;>
    cases category <;> simp [bodies, rules]

/-! ## Literals -/

@[simp] theorem filler_const (sample : Sample Int64) :
    arithmetic.filler (arithmetic.symbol .const) sample = arithmetic.constants := by
  rw [filler, role?_symbol]
  rfl

theorem mem_filler_param {sample : Sample Int64} {index : Int64} :
    index ∈ arithmetic.filler (arithmetic.symbol .param) sample ↔
      0 ≤ index.toInt ∧ index.toInt < sample.inputCount := by
  rw [filler, role?_symbol]
  change index ∈ (List.range sample.inputCount).filterMap (fun (position : Nat) =>
    word? position) ↔ _
  rw [List.mem_filterMap]
  constructor
  · rintro ⟨position, within, made⟩
    rw [(word?_eq_some_iff _ _).mp made]
    exact ⟨Int.natCast_nonneg position, by exact_mod_cast List.mem_range.mp within⟩
  · rintro ⟨natural, within⟩
    refine ⟨index.toInt.toNat, List.mem_range.mpr (by omega), ?_⟩
    rw [word?_eq_some_iff, Int.toNat_of_nonneg natural]

end Arithmetic

end ProgramSearch
