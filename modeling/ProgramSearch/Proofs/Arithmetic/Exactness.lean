import ProgramSearch.Arithmetic.WellFormed
import ProgramSearch.Proofs.Arithmetic.Course
import ProgramSearch.Proofs.Arithmetic.Grammar
import ProgramSearch.Proofs.Tree.Building

namespace ProgramSearch
namespace Arithmetic

/-!
# Evaluation is exact

A tree that can be built has a value if and only if all its nodes are well formed and the exact
results of all its operations fit, and then the value is the exact one.  So no part of a tree
with a value goes unread.
-/

variable {arithmetic : Arithmetic} {env : Env Int64}

/-! ## One node by its role -/

section Node

variable {symbol : Symbol} {literal : Option Int64} {children : List (Tree Int64)}

theorem forestExactValues_eq_map (trees : List (Tree Int64)) :
    arithmetic.forestExactValues env trees = trees.map (arithmetic.exactValue env) := by
  induction trees with
  | nil => rfl
  | cons tree trees ih => rw [forestExactValues, ih, List.map_cons]

theorem exactValue_node {category : Category}
    (known : arithmetic.category? symbol = some category) :
    arithmetic.exactValue env (.node symbol literal children) =
      category.value env literal (children.map (arithmetic.exactValue env)) := by
  rw [exactValue, known, ← forestExactValues_eq_map]

theorem wellFormed_wrapper (role : arithmetic.role? symbol = some .wrapper) (child : Tree Int64) :
    arithmetic.WellFormed env (.node symbol literal [child]) := by
  rcases exists_category_of_role role with ⟨category, known, plays⟩
  refine ⟨category, known, ?_⟩
  cases category <;> cases plays <;> exact ⟨rfl, trivial⟩

theorem exactValue_wrapper (role : arithmetic.role? symbol = some .wrapper) (child : Tree Int64) :
    arithmetic.exactValue env (.node symbol literal [child]) =
      arithmetic.exactValue env child := by
  rcases exists_category_of_role role with ⟨category, known, plays⟩
  rw [exactValue_node known]
  cases category <;> cases plays <;> rfl

theorem wellFormed_operation {operator : BinaryOperator}
    (role : arithmetic.role? symbol = some (.binary operator)) (left right : Tree Int64) :
    arithmetic.WellFormed env (.node symbol literal [left, right]) := by
  refine ⟨operator.category, category_of_operation role, ?_⟩
  cases operator <;> exact ⟨rfl, trivial⟩

theorem exactValue_operation {operator : BinaryOperator}
    (role : arithmetic.role? symbol = some (.binary operator)) (left right : Tree Int64) :
    arithmetic.exactValue env (.node symbol literal [left, right]) =
      operator.exact (arithmetic.exactValue env left) (arithmetic.exactValue env right) := by
  rw [exactValue_node (category_of_operation role)]
  cases operator <;> rfl

theorem operationFits_of_role {role : Role} (known : arithmetic.role? symbol = some role)
    (other : ∀ operator, role ≠ .binary operator) :
    arithmetic.OperationFits env (.node symbol literal children) := by
  intro operator same
  have plays : arithmetic.role? symbol = some operator.category.role := role_of_category same
  rw [known, BinaryOperator.role_category, Option.some.injEq] at plays
  exact absurd plays (other operator)

theorem exactValue_constant (role : arithmetic.role? symbol = some .constant) (word : Int64) :
    arithmetic.exactValue env (.node symbol (some word) []) = word.toInt :=
  exactValue_node (category_of_constant role)

theorem exactValue_parameter (role : arithmetic.role? symbol = some .parameter)
    {index argument : Int64} (found : env.arguments[index.toInt.toNat]? = some argument) :
    arithmetic.exactValue env (.node symbol (some index) []) = argument.toInt := by
  rw [exactValue_node (category_of_parameter role), List.map_nil, Category.value,
    Option.bind_some, found]
  rfl

theorem exists_argument {index : Int64} (natural : 0 ≤ index.toInt)
    (within : index.toInt < env.length) :
    ∃ argument, env.arguments[index.toInt.toNat]? = some argument := by
  have inside : index.toInt.toNat < env.arguments.length := by
    rw [Env.length] at within
    omega
  exact ⟨_, List.getElem?_eq_getElem inside⟩

/-- A node with a literal is a leaf. -/
theorem eq_nil_of_literal {word : Int64}
    (rule : (Tree.node symbol (some word) children).literalsOnLeaves = true) : children = [] := by
  by_contra inner
  cases (Tree.literalsOnLeaves_node.mp rule).1 inner

/-- The four shapes of a well-formed node. -/
theorem WellFormed.shape (sound : arithmetic.WellFormed env (.node symbol literal children)) :
    (arithmetic.role? symbol = some .wrapper ∧ ∃ child, children = [child]) ∨
      (∃ operator, arithmetic.role? symbol = some (.binary operator) ∧
        ∃ left right, children = [left, right]) ∨
      (arithmetic.role? symbol = some .constant ∧ children = [] ∧ ∃ word, literal = some word) ∨
      (arithmetic.role? symbol = some .parameter ∧ children = [] ∧
        ∃ index, literal = some index ∧ 0 ≤ index.toInt ∧ index.toInt < env.length) := by
  rcases sound with ⟨category, known, arity, reads⟩
  have role := role_of_category known
  cases category with
  | start => exact Or.inl ⟨role, List.length_eq_one_iff.mp arity⟩
  | exp => exact Or.inl ⟨role, List.length_eq_one_iff.mp arity⟩
  | add => exact Or.inr (Or.inl ⟨_, role, List.length_eq_two.mp arity⟩)
  | minus => exact Or.inr (Or.inl ⟨_, role, List.length_eq_two.mp arity⟩)
  | mult => exact Or.inr (Or.inl ⟨_, role, List.length_eq_two.mp arity⟩)
  | const => exact Or.inr (Or.inr (Or.inl ⟨role, List.length_eq_zero_iff.mp arity, reads⟩))
  | param => exact Or.inr (Or.inr (Or.inr ⟨role, List.length_eq_zero_iff.mp arity, reads⟩))

end Node

/-! ## Values are exact -/

section Exact

variable {tree : Tree Int64}

/-- A well-formed tree with operations that fit has its exact value. -/
theorem hasValue_exactValue
    (sound : tree.Everywhere fun part =>
      arithmetic.WellFormed env part ∧ arithmetic.OperationFits env part) :
    arithmetic.HasValue env tree (arithmetic.exactValue env tree) := by
  induction tree using Tree.induction with
  | leaf symbol literal =>
      rcases (Tree.everywhere_node.mp sound).1.1.shape with
        ⟨_, _, impossible⟩ | ⟨_, _, _, _, impossible⟩ | ⟨role, _, word, rfl⟩ |
          ⟨role, _, index, rfl, natural, within⟩
      · cases impossible
      · cases impossible
      · rw [exactValue_constant role]
        exact .constant role
      · rcases exists_argument natural within with ⟨argument, found⟩
        rw [exactValue_parameter role found]
        exact .parameter role natural found
  | branch symbol literal child children ih =>
      rcases Tree.everywhere_node.mp sound with ⟨⟨wellFormed, fits⟩, below⟩
      have valued := fun part member => ih part member (below part member)
      rcases wellFormed.shape with
        ⟨role, _, same⟩ | ⟨operator, role, left, right, same⟩ | ⟨_, impossible, _⟩ |
          ⟨_, impossible, _⟩
      · cases same
        rw [exactValue_wrapper role]
        exact .wrapper role (valued _ List.mem_cons_self)
      · cases same
        have fit := fits operator (category_of_operation role)
        rw [exactValue_operation role] at fit ⊢
        exact .operation role (valued _ List.mem_cons_self)
          (valued _ (List.mem_cons_of_mem _ List.mem_cons_self)) fit
      · cases impossible
      · cases impossible

/-- Where only leaves carry literals, a value is exact, and nothing in the tree is malformed or
does not fit. -/
theorem HasValue.sound {value : Int} (has : arithmetic.HasValue env tree value)
    (rule : tree.literalsOnLeaves = true) :
    arithmetic.exactValue env tree = value ∧ tree.Everywhere fun part =>
      arithmetic.WellFormed env part ∧ arithmetic.OperationFits env part := by
  induction has with
  | @wrapper symbol literal child value role _ ih =>
      rcases ih ((Tree.literalsOnLeaves_node.mp rule).2 child List.mem_cons_self) with
        ⟨agrees, sound⟩
      refine ⟨(exactValue_wrapper role child).trans agrees, Tree.everywhere_node.mpr ?_⟩
      exact ⟨⟨wellFormed_wrapper role child, operationFits_of_role role (by simp)⟩,
        List.forall_mem_singleton.mpr sound⟩
  | @operation symbol literal operator leftChild rightChild left right role _ _ fits
      onLeft onRight =>
      have below := (Tree.literalsOnLeaves_node.mp rule).2
      rcases onLeft (below _ List.mem_cons_self) with ⟨agreesLeft, soundLeft⟩
      rcases onRight (below _ (List.mem_cons_of_mem _ List.mem_cons_self)) with
        ⟨agreesRight, soundRight⟩
      have agrees : arithmetic.exactValue env (.node symbol literal [leftChild, rightChild]) =
          operator.exact left right := by
        rw [exactValue_operation role, agreesLeft, agreesRight]
      refine ⟨agrees, Tree.everywhere_node.mpr ⟨⟨wellFormed_operation role _ _, ?_⟩, ?_⟩⟩
      · intro _ _
        rw [agrees]
        exact fits
      · rw [List.forall_mem_cons, List.forall_mem_singleton]
        exact ⟨soundLeft, soundRight⟩
  | @constant symbol word children role =>
      cases eq_nil_of_literal rule
      refine ⟨exactValue_constant role word, Tree.everywhere_node.mpr ⟨⟨?_, ?_⟩, by simp⟩⟩
      · exact ⟨_, category_of_constant role, rfl, word, rfl⟩
      · exact operationFits_of_role role (by simp)
  | @parameter symbol index argument children role natural found =>
      cases eq_nil_of_literal rule
      refine ⟨exactValue_parameter role found, Tree.everywhere_node.mpr ⟨⟨?_, ?_⟩, by simp⟩⟩
      · have within : index.toInt.toNat < env.length :=
          (List.getElem?_eq_some_iff.mp found).1
        exact ⟨_, category_of_parameter role, rfl, index, rfl, natural, by omega⟩
      · exact operationFits_of_role role (by simp)

/-- A built tree over any symbols has a value if and only if every node is well formed and every
operation has an exact result that fits; the value is the exact one. -/
theorem value_exact (built : tree.Built) (word : Int64) :
    arithmetic.evaluate tree env = .ok (some word) ↔
      tree.Everywhere (arithmetic.WellFormed env) ∧
        tree.Everywhere (arithmetic.OperationFits env) ∧
          word.toInt = arithmetic.exactValue env tree := by
  constructor
  · intro evaluated
    have has : arithmetic.HasValue env tree word.toInt := evaluate_eq_iff.mp evaluated
    rcases has.sound built.literalsOnLeaves with ⟨agrees, sound⟩
    exact ⟨fun path part there => (sound path part there).1,
      fun path part there => (sound path part there).2, agrees.symm⟩
  · rintro ⟨wellFormed, fits, agrees⟩
    have has := hasValue_exactValue fun path part there =>
      ⟨wellFormed path part there, fits path part there⟩
    rw [← agrees] at has
    exact has.evaluate_eq

end Exact

/-- Zero less an argument less one. -/
def leastProgram (arithmetic : Arithmetic) : Tree Int64 :=
  (Expression.operation .minus (.operation .minus (.constant 0) (.parameter 1))
    (.constant 1)).program arithmetic

/-- Over the greatest word as the argument the value is the least word. -/
theorem value_exact_least :
    (leastProgram ⟨3, [0, 1], true⟩).Built ∧
      (leastProgram ⟨3, [0, 1], true⟩).Everywhere
          (WellFormed ⟨3, [0, 1], true⟩ ⟨[7, Int64.maxValue]⟩) ∧
        (leastProgram ⟨3, [0, 1], true⟩).Everywhere
            (OperationFits ⟨3, [0, 1], true⟩ ⟨[7, Int64.maxValue]⟩) ∧
          Int64.minValue.toInt =
            exactValue ⟨3, [0, 1], true⟩ ⟨[7, Int64.maxValue]⟩
              (leastProgram ⟨3, [0, 1], true⟩) := by
  have built : (leastProgram ⟨3, [0, 1], true⟩).Built := Tree.built_iff.mpr rfl
  exact ⟨built, (value_exact built Int64.minValue).mp (by decide)⟩

end Arithmetic
end ProgramSearch
