import ProgramSearch.Proofs.Arithmetic.Node
import ProgramSearch.Proofs.Arithmetic.Program
import ProgramSearch.Proofs.Search.Smallest

namespace ProgramSearch

/-!
# What an arithmetic program evaluates to

The program of an expression over the arguments at hand has the value of the expression, and
if the expression has none, the program faults at an operation whose exact result does not
fit.  Whatever is within reach of the constants and the arguments is the value of some
expression, and nothing else is.
-/

namespace Arithmetic

variable {arithmetic : Arithmetic} {env : Env Int64}

/-! ## The meaning of a node from those of its children -/

/-- A fault of a child that decides the value of its parent is one of the parent. -/
theorem Faults.parent {symbol : Symbol} {literal : Option Int64} {children : List (Tree Int64)}
    {child : Tree Int64} (faults : arithmetic.Faults env child) (index : Nat)
    (here : children[index]? = some child)
    (passes : ∀ error, arithmetic.evaluate child env = .error error →
      arithmetic.evaluate (.node symbol literal children) env = .error error) :
    arithmetic.Faults env (.node symbol literal children) := by
  rcases faults with ⟨operator, left, right, failed, path, overflows⟩
  refine ⟨operator, left, right, passes _ failed, index :: path, ?_⟩
  rw [Tree.descendant?, Tree.children, here]
  exact overflows

namespace Means

theorem wrapper {category : Category} (role : category.role = .wrapper) {child : Tree Int64}
    {value : Option Int64} (inside : arithmetic.Means env child value) :
    arithmetic.Means env (.node (arithmetic.symbol category) none [child]) value := by
  have same : arithmetic.evaluate (.node (arithmetic.symbol category) none [child]) env =
      arithmetic.evaluate child env :=
    evaluate_wrapper (by rw [role?_symbol, role]) child
  cases value with
  | some word => exact same.trans inside
  | none => exact Faults.parent inside 0 rfl fun error failed => same.trans failed

/-- An operation has a value when its operands do and the result fits; otherwise it faults, at
the first operand that does or by itself. -/
theorem operation (operator : BinaryOperator) {leftChild rightChild : Tree Int64}
    {left right : Option Int64} (onLeft : arithmetic.Means env leftChild left)
    (onRight : arithmetic.Means env rightChild right) :
    arithmetic.Means env
      (.node (arithmetic.symbol operator.category) none [leftChild, rightChild])
      (left.bind fun leftValue => right.bind (operator.result? leftValue)) := by
  have role : arithmetic.role? (arithmetic.symbol operator.category) = some (.binary operator) := by
    rw [role?_symbol, BinaryOperator.role_category]
  cases left with
  | none => exact Faults.parent onLeft 0 rfl fun error failed => evaluate_left role (by simp) failed
  | some leftValue =>
      cases right with
      | none =>
          exact Faults.parent onRight 1 rfl fun error failed =>
            evaluate_right role (by simp) onLeft failed
      | some rightValue =>
          rw [Option.bind_some, Option.bind_some]
          have combined : arithmetic.evaluate (.node (arithmetic.symbol operator.category) none
              [leftChild, rightChild]) env = combine operator leftValue rightValue :=
            evaluate_operation role onLeft onRight
          cases result : operator.result? leftValue rightValue with
          | some word =>
              rw [Means, combined, combine, result]
          | none =>
              refine ⟨operator, leftValue, rightValue, ?_, [], _, _, _, _, rfl, role, onLeft,
                onRight, (word?_eq_none_iff _).mp result⟩
              rw [combined, combine, result]

end Means

end Arithmetic

/-! ## Expressions -/

/-- Reach is that of the operations on words: a result that fits is within reach as its operands
are. -/
theorem WithinReach.operation {given : List Int64} (operator : BinaryOperator)
    {left right word : Int64} (onLeft : WithinReach given left.toInt)
    (onRight : WithinReach given right.toInt)
    (result : operator.result? left right = some word) : WithinReach given word.toInt := by
  have exact : word.toInt = operator.exact left.toInt right.toInt :=
    (word?_eq_some_iff _ _).mp result
  have fits : Fits (operator.exact left.toInt right.toInt) := exact ▸ fits_toInt word
  rw [exact]
  cases operator with
  | add => exact .sum onLeft onRight fits
  | minus => exact .difference onLeft onRight fits
  | mult => exact .product onLeft onRight fits

namespace Expression

variable {arithmetic : Arithmetic} {constants arguments : List Int64}

/-- Over the arguments at hand the tree of an expression means its value. -/
theorem means_tree {count : Nat} (enough : count ≤ arguments.length) {expression : Expression}
    (drawn : expression.Over constants count) :
    arithmetic.Means ⟨arguments⟩ (expression.tree arithmetic) (expression.value? arguments) := by
  induction drawn with
  | @constant word =>
      exact .wrapper rfl (Arithmetic.evaluate_constant (arithmetic.role?_symbol .const) [])
  | @parameter index natural within =>
      have inside : index.toInt.toNat < arguments.length := by omega
      have found := List.getElem?_eq_getElem inside
      rw [value?, found]
      exact .wrapper rfl
        (Arithmetic.evaluate_parameter_found (arithmetic.role?_symbol .param) natural found [])
  | operation _ _ onLeft onRight => exact .wrapper rfl (.operation _ onLeft onRight)

/-- The value of an expression is within reach of its constants and arguments. -/
theorem withinReach_of_value {count : Nat} {expression : Expression}
    (drawn : expression.Over constants count) {word : Int64}
    (value : expression.value? arguments = some word) :
    WithinReach (constants ++ arguments) word.toInt := by
  induction drawn generalizing word with
  | constant member =>
      cases value
      exact .given (List.mem_append_left _ member)
  | parameter _ _ => exact .given (List.mem_append_right _ (List.mem_of_getElem? value))
  | @operation operator left right _ _ onLeft onRight =>
      rcases Option.bind_eq_some_iff.mp value with ⟨leftValue, hasLeft, rest⟩
      rcases Option.bind_eq_some_iff.mp rest with ⟨rightValue, hasRight, result⟩
      exact .operation operator (onLeft hasLeft) (onRight hasRight) result

/-- Some expression over the constants and the arguments has the integer as its value. -/
def Attains (constants arguments : List Int64) (value : Int) : Prop :=
  ∃ (expression : Expression) (word : Int64), expression.Over constants arguments.length ∧
    expression.value? arguments = some word ∧ word.toInt = value

theorem Attains.operation (operator : BinaryOperator) {left right : Int}
    (onLeft : Attains constants arguments left) (onRight : Attains constants arguments right)
    (fits : Fits (operator.exact left right)) :
    Attains constants arguments (operator.exact left right) := by
  rcases onLeft with ⟨leftExpression, leftWord, overLeft, hasLeft, rfl⟩
  rcases onRight with ⟨rightExpression, rightWord, overRight, hasRight, rfl⟩
  have made : operator.result? leftWord rightWord ≠ none := by
    rw [BinaryOperator.result?, Ne, word?_eq_none_iff]
    exact not_not_intro fits
  rcases Option.ne_none_iff_exists'.mp made with ⟨word, result⟩
  refine ⟨.operation operator leftExpression rightExpression, word,
    .operation overLeft overRight, ?_, (word?_eq_some_iff _ _).mp result⟩
  rw [value?, hasLeft, hasRight, Option.bind_some, Option.bind_some, result]

/-- Whatever is within reach is the value of an expression, as long as every argument has a
position that fits. -/
theorem attains_of_withinReach (positioned : arguments.length ≤ 2 ^ 63) {value : Int}
    (reach : WithinReach (constants ++ arguments) value) :
    Attains constants arguments value := by
  induction reach with
  | @given word member =>
      rcases List.mem_append.mp member with constant | argument
      · exact ⟨.constant word, word, .constant constant, rfl, rfl⟩
      · rcases List.mem_iff_getElem?.mp argument with ⟨position, found⟩
        have within : position < arguments.length := (List.getElem?_eq_some_iff.mp found).1
        have least : Int64.minValue.toInt = -2 ^ 63 := rfl
        have greatest : Int64.maxValue.toInt = 2 ^ 63 - 1 := rfl
        have fits : word? (position : Int) ≠ none := by
          rw [Ne, word?_eq_none_iff, not_not, Fits]
          omega
        rcases Option.ne_none_iff_exists'.mp fits with ⟨index, made⟩
        have same : index.toInt = position := (word?_eq_some_iff _ _).mp made
        refine ⟨.parameter index, word, .parameter (by omega) (by omega), ?_, rfl⟩
        rw [value?, same, Int.toNat_natCast]
        exact found
  | sum _ _ fits onLeft onRight => exact .operation .add onLeft onRight fits
  | difference _ _ fits onLeft onRight => exact .operation .minus onLeft onRight fits
  | product _ _ fits onLeft onRight => exact .operation .mult onLeft onRight fits

end Expression

namespace Arithmetic

variable {arithmetic : Arithmetic} {sample : Sample Int64}

theorem argumentCount_le (arithmetic : Arithmetic) (sample : Sample Int64) :
    arithmetic.argumentCount sample ≤ sample.inputs.length := by
  rw [argumentCount]
  split
  · exact Nat.le_refl _
  · exact Nat.zero_le _

/-- A program means the value of its expression. -/
theorem means_program {expression : Expression}
    (drawn : expression.Over arithmetic.constants (arithmetic.argumentCount sample)) :
    arithmetic.Means ⟨sample.inputs⟩ (expression.program arithmetic)
      (expression.value? sample.inputs) :=
  .wrapper rfl (Expression.means_tree (arithmetic.argumentCount_le sample) drawn)

theorem evaluate_eq_ok_iff {program : Tree Int64} {env : Env Int64} {value : Option Int64}
    (means : arithmetic.Means env program value) (word : Int64) :
    arithmetic.evaluate program env = .ok (some word) ↔ value = some word := by
  cases value with
  | some other =>
      rw [show arithmetic.evaluate program env = .ok (some other) from means]
      simp
  | none =>
      rcases means with ⟨_, _, _, failed, _⟩
      rw [failed]
      simp

/-- The solutions are the programs of expressions with the wanted value. -/
theorem isSolution_iff (provided : arithmetic.Provided sample) {budget : Budget}
    {program : Tree Int64} :
    (arithmetic.synthesizer budget).IsSolution sample program ↔
      ∃ expression : Expression,
        expression.Over arithmetic.constants (arithmetic.argumentCount sample) ∧
          program = expression.program arithmetic ∧
            expression.value? sample.inputs = some sample.output := by
  constructor
  · rintro ⟨isProgram, correct⟩
    rcases (isProgram_iff provided).mp isProgram with ⟨expression, drawn, rfl⟩
    exact ⟨expression, drawn, rfl, (evaluate_eq_ok_iff (means_program drawn) _).mp correct⟩
  · rintro ⟨expression, drawn, rfl, value⟩
    exact ⟨isProgram_program drawn, (evaluate_eq_ok_iff (means_program drawn) _).mpr value⟩

/-- Every program means something, so none has no value for want of children, literals or
arguments. -/
theorem exists_means (provided : arithmetic.Provided sample) {program : Tree Int64}
    (isProgram : arithmetic.grammar.IsProgram arithmetic.filler sample program) :
    ∃ value, arithmetic.Means ⟨sample.inputs⟩ program value := by
  rcases (isProgram_iff provided).mp isProgram with ⟨expression, drawn, rfl⟩
  exact ⟨_, means_program drawn⟩

/-- No program fails fatally. -/
theorem not_fatal (provided : arithmetic.Provided sample) {program : Tree Int64}
    (isProgram : arithmetic.grammar.IsProgram arithmetic.filler sample program)
    {error : EvalError} (failed : arithmetic.evaluate program ⟨sample.inputs⟩ = .error error) :
    error.isFatal = false := by
  rcases exists_means provided isProgram with ⟨_ | value, means⟩
  · rcases means with ⟨_, _, _, faulted, _⟩
    rw [faulted] at failed
    cases failed
    rfl
  · rw [show arithmetic.evaluate program ⟨sample.inputs⟩ = .ok (some value) from means] at failed
    cases failed

end Arithmetic

end ProgramSearch
