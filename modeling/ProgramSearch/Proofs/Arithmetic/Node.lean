import ProgramSearch.Arithmetic.Exact

namespace ProgramSearch

/-!
# The answer for one node

What the evaluator answers for a node depends on the role of its symbol and on the answers for
its children.  Of two operands the first one without a value decides.
-/

/-- There is no word for an integer that does not fit. -/
theorem word?_eq_none_iff (value : Int) : word? value = none ↔ ¬ Fits value := by
  unfold word? Fits
  split
  · rename_i fits
    exact iff_of_false (Option.some_ne_none _) (not_not_intro fits)
  · rename_i outside
    exact iff_of_true rfl outside

namespace Arithmetic

variable {arithmetic : Arithmetic} {env : Env Int64}
variable {symbol : Symbol} {literal : Option Int64}

/-- An answer without a value is an error or nothing at all. -/
theorem cases_of_no_value {answer : Evaluated Int64} (ends : ∀ word, answer ≠ .ok (some word)) :
    answer = .ok none ∨ ∃ error, answer = .error error := by
  rcases answer with error | _ | word
  · exact Or.inr ⟨error, rfl⟩
  · exact Or.inl rfl
  · exact absurd rfl (ends word)

/-- One step of the evaluator.  Everything below is read off it. -/
theorem evaluate_node (children : List (Tree Int64)) :
    arithmetic.evaluate (.node symbol literal children) env =
      match arithmetic.role? symbol with
      | none =>
          .error (ArithmeticFault.foreignSymbol (arithmetic.grammar.name symbol)).toError
      | some .wrapper =>
          match children with
          | [] => .ok none
          | [child] => arithmetic.evaluate child env
          | _ =>
              .error (ArithmeticFault.wrapsSeveral (arithmetic.grammar.name symbol)
                children.length).toError
      | some (.binary operator) =>
          match children with
          | [leftChild, rightChild] =>
              match arithmetic.evaluate leftChild env with
              | .error error => .error error
              | .ok none => .ok none
              | .ok (some left) =>
                  match arithmetic.evaluate rightChild env with
                  | .error error => .error error
                  | .ok none => .ok none
                  | .ok (some right) => combine operator left right
          | _ => .ok none
      | some .constant => (arithmetic.required symbol literal).map some
      | some .parameter => (arithmetic.required symbol literal).bind (argument env) :=
  evaluate.eq_def arithmetic (.node symbol literal children) env

theorem evaluate_wrapper (role : arithmetic.role? symbol = some .wrapper) (child : Tree Int64) :
    arithmetic.evaluate (.node symbol literal [child]) env = arithmetic.evaluate child env := by
  rw [evaluate_node, role]

theorem evaluate_constant (role : arithmetic.role? symbol = some .constant)
    (children : List (Tree Int64)) :
    arithmetic.evaluate (.node symbol literal children) env =
      (arithmetic.required symbol literal).map some := by
  rw [evaluate_node, role]

theorem evaluate_parameter (role : arithmetic.role? symbol = some .parameter)
    (children : List (Tree Int64)) :
    arithmetic.evaluate (.node symbol literal children) env =
      (arithmetic.required symbol literal).bind (argument env) := by
  rw [evaluate_node, role]

theorem argument_of_natural {index : Int64} (natural : 0 ≤ index.toInt) :
    argument env index = (env.lookup index.toInt.toNat).map some :=
  if_neg (Int.not_lt.mpr natural)

theorem evaluate_parameter_found {index argument : Int64}
    (role : arithmetic.role? symbol = some .parameter) (natural : 0 ≤ index.toInt)
    (found : env.arguments[index.toInt.toNat]? = some argument) (children : List (Tree Int64)) :
    arithmetic.evaluate (.node symbol (some index) children) env = .ok (some argument) := by
  rw [evaluate_parameter role]
  change Arithmetic.argument env index = _
  rw [argument_of_natural natural, Env.lookup, found]
  rfl

section Operation

variable {operator : BinaryOperator} {leftChild rightChild : Tree Int64}
variable (role : arithmetic.role? symbol = some (.binary operator))
include role

theorem evaluate_operation {left right : Int64}
    (onLeft : arithmetic.evaluate leftChild env = .ok (some left))
    (onRight : arithmetic.evaluate rightChild env = .ok (some right)) :
    arithmetic.evaluate (.node symbol literal [leftChild, rightChild]) env =
      combine operator left right := by
  simp [evaluate_node, role, onLeft, onRight]

/-- A left operand without a value decides. -/
theorem evaluate_left {answer : Evaluated Int64} (ends : ∀ word, answer ≠ .ok (some word))
    (onLeft : arithmetic.evaluate leftChild env = answer) :
    arithmetic.evaluate (.node symbol literal [leftChild, rightChild]) env = answer := by
  rcases cases_of_no_value ends with rfl | ⟨error, rfl⟩ <;> simp [evaluate_node, role, onLeft]

/-- If the left operand has a value, a right operand without one decides. -/
theorem evaluate_right {left : Int64} {answer : Evaluated Int64}
    (ends : ∀ word, answer ≠ .ok (some word))
    (onLeft : arithmetic.evaluate leftChild env = .ok (some left))
    (onRight : arithmetic.evaluate rightChild env = answer) :
    arithmetic.evaluate (.node symbol literal [leftChild, rightChild]) env = answer := by
  rcases cases_of_no_value ends with rfl | ⟨error, rfl⟩ <;>
    simp [evaluate_node, role, onLeft, onRight]

end Operation

end Arithmetic

end ProgramSearch
