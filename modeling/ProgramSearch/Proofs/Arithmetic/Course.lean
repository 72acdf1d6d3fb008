import Mathlib.Data.List.Basic
import ProgramSearch.Arithmetic.Course
import ProgramSearch.Proofs.Arithmetic.Node

namespace ProgramSearch
namespace Arithmetic

/-!
# Every answer has its reason

The evaluator answers with a value exactly for the trees that have one.  Otherwise the part at
which the evaluation ends decides the answer, whatever stands around it or to its right.
-/

variable {arithmetic : Arithmetic} {env : Env Int64}

/-! ## From the reason to the answer -/

section Answer

variable {tree part : Tree Int64}

/-- The value of a tree is a word, and the evaluator answers with it. -/
theorem HasValue.exists_evaluate {value : Int} (has : arithmetic.HasValue env tree value) :
    ∃ word : Int64, word.toInt = value ∧ arithmetic.evaluate tree env = .ok (some word) := by
  induction has with
  | wrapper role _ ih =>
      rw [evaluate_wrapper role]
      exact ih
  | @operation symbol literal operator leftChild rightChild left right role _ _ fits
      onLeft onRight =>
      rcases onLeft with ⟨leftWord, rfl, evaluatedLeft⟩
      rcases onRight with ⟨rightWord, rfl, evaluatedRight⟩
      have result : operator.result? leftWord rightWord ≠ none :=
        fun refused => (word?_eq_none_iff _).mp refused fits
      rcases Option.ne_none_iff_exists'.mp result with ⟨word, made⟩
      refine ⟨word, (word?_eq_some_iff _ _).mp made, ?_⟩
      rw [evaluate_operation role evaluatedLeft evaluatedRight, combine, made]
  | @constant symbol word children role =>
      exact ⟨word, rfl, evaluate_constant role children⟩
  | @parameter symbol index argument children role natural found =>
      exact ⟨argument, rfl, evaluate_parameter_found role natural found children⟩

theorem HasValue.evaluate_eq {word : Int64} (has : arithmetic.HasValue env tree word.toInt) :
    arithmetic.evaluate tree env = .ok (some word) := by
  rcases has.exists_evaluate with ⟨other, same, evaluated⟩
  rw [evaluated, Int64.toInt_inj.mp same]

/-- A part that the evaluation comes to and that has no value decides. -/
theorem ComesTo.evaluate_eq (comes : arithmetic.ComesTo env tree part)
    (ends : ∀ word, arithmetic.evaluate part env ≠ .ok (some word)) :
    arithmetic.evaluate tree env = arithmetic.evaluate part env := by
  induction comes with
  | here => rfl
  | inside role _ ih =>
      rw [evaluate_wrapper role]
      exact ih ends
  | onLeft role _ ih => exact evaluate_left role ends (ih ends)
  | onRight role passed _ ih =>
      rcases passed.exists_evaluate with ⟨left, _, evaluated⟩
      exact evaluate_right role ends evaluated (ih ends)

theorem Lacks.evaluate_eq (lacks : arithmetic.Lacks part) :
    arithmetic.evaluate part env = .ok none := by
  cases lacks with
  | wrapper role => rw [evaluate_node, role]
  | operation role operands =>
      simp only [evaluate_node, role]
      split
      · exact absurd rfl operands
      · rfl

theorem Fails.evaluate_eq {error : EvalError} (fails : arithmetic.Fails env part error) :
    arithmetic.evaluate part env = .error error := by
  cases fails with
  | foreign role => rw [evaluate_node, role]
  | several role many =>
      simp only [evaluate_node, role]
      split
      · cases many
      · exact absurd many (Nat.lt_irrefl _)
      · rfl
  | @overflow _ _ operator _ _ left right role onLeft onRight outside =>
      have refused : operator.result? left right = none := (word?_eq_none_iff _).mpr outside
      rw [evaluate_operation role onLeft.evaluate_eq onRight.evaluate_eq, combine, refused]
  | missingLiteral role =>
      rcases role with role | role
      · exact evaluate_constant role _
      · exact evaluate_parameter role _
  | @negativeIndex _ index _ role negative =>
      exact (evaluate_parameter role _).trans (if_pos negative)
  | @outOfRange _ index _ role natural beyond =>
      refine (evaluate_parameter role _).trans ?_
      change argument env index = _
      rw [argument_of_natural natural, Env.lookup, List.getElem?_eq_none beyond]
      rfl

end Answer

/-! ## From the answer to its reason -/

theorem ComesTo.trans {tree part inner : Tree Int64} (outside : arithmetic.ComesTo env tree part)
    (inside : arithmetic.ComesTo env part inner) : arithmetic.ComesTo env tree inner := by
  induction outside with
  | here => exact inside
  | inside role _ ih => exact .inside role (ih inside)
  | onLeft role _ ih => exact .onLeft role (ih inside)
  | onRight role passed _ ih => exact .onRight role passed (ih inside)

/-- What ends the evaluation of a part that it comes to ends that of the whole tree. -/
theorem Explains.of_comesTo {tree part : Tree Int64} {answer : Evaluated Int64}
    (explained : arithmetic.Explains env part answer) (comes : arithmetic.ComesTo env tree part)
    (ends : ∀ word, answer ≠ .ok (some word)) : arithmetic.Explains env tree answer := by
  rcases cases_of_no_value ends with rfl | ⟨error, rfl⟩
  · rcases explained with ⟨inner, inside, lacks⟩
    exact ⟨inner, comes.trans inside, lacks⟩
  · rcases explained with ⟨inner, inside, fails⟩
    exact ⟨inner, comes.trans inside, fails⟩

section Node

variable {symbol : Symbol} {literal : Option Int64} {children : List (Tree Int64)}

theorem explains_wrapper (role : arithmetic.role? symbol = some .wrapper) {child : Tree Int64}
    {answer : Evaluated Int64} (inside : arithmetic.Explains env child answer) :
    arithmetic.Explains env (.node symbol literal [child]) answer := by
  rcases answer with error | _ | word
  · exact inside.of_comesTo (.inside role .here) (by simp)
  · exact inside.of_comesTo (.inside role .here) (by simp)
  · exact .wrapper role inside

theorem explains_combine {operator : BinaryOperator} {leftChild rightChild : Tree Int64}
    {left right : Int64} (role : arithmetic.role? symbol = some (.binary operator))
    (onLeft : arithmetic.HasValue env leftChild left.toInt)
    (onRight : arithmetic.HasValue env rightChild right.toInt) :
    arithmetic.Explains env (.node symbol literal [leftChild, rightChild])
      (combine operator left right) := by
  rw [combine]
  cases result : operator.result? left right with
  | none => exact ⟨_, .here, .overflow role onLeft onRight ((word?_eq_none_iff _).mp result)⟩
  | some word =>
      have same := (word?_eq_some_iff _ _).mp result
      have fits : Fits (operator.exact left.toInt right.toInt) := same ▸ fits_toInt word
      have has : arithmetic.HasValue env (.node symbol literal [leftChild, rightChild]) _ :=
        .operation role onLeft onRight fits
      rw [← same] at has
      exact has

theorem explains_constant (role : arithmetic.role? symbol = some .constant) :
    arithmetic.Explains env (.node symbol literal children)
      ((arithmetic.required symbol literal).map some) := by
  cases literal with
  | none => exact ⟨_, .here, .missingLiteral (Or.inl role)⟩
  | some word => exact .constant role

theorem explains_parameter (role : arithmetic.role? symbol = some .parameter) :
    arithmetic.Explains env (.node symbol literal children)
      ((arithmetic.required symbol literal).bind (argument env)) := by
  cases literal with
  | none => exact ⟨_, .here, .missingLiteral (Or.inr role)⟩
  | some index =>
      change arithmetic.Explains env _ (argument env index)
      rcases Int.lt_or_le index.toInt 0 with negative | natural
      · rw [argument, if_pos negative]
        exact ⟨_, .here, .negativeIndex role negative⟩
      · rw [argument_of_natural natural, Env.lookup]
        cases found : env.arguments[index.toInt.toNat]? with
        | none =>
            exact ⟨_, .here, .outOfRange role natural (List.getElem?_eq_none_iff.mp found)⟩
        | some argument => exact .parameter role natural found

end Node

/-- Whatever the tree is like, its answer has a reason. -/
theorem explains_evaluate (arithmetic : Arithmetic) (env : Env Int64) (tree : Tree Int64) :
    arithmetic.Explains env tree (arithmetic.evaluate tree env) := by
  -- One case for each branch of the evaluator.  An operand that has no value brings its own
  -- reason along, and it is passed on to the operation.
  fun_induction Arithmetic.evaluate arithmetic tree env with
  | case1 symbol literal children env role => exact ⟨_, .here, .foreign role⟩
  | case2 symbol literal env role => exact ⟨_, .here, .wrapper role⟩
  | case3 symbol literal env role child inside => exact explains_wrapper role inside
  | case4 symbol literal children env role filled notOne =>
      refine ⟨_, .here, .several role ?_⟩
      rcases children with _ | ⟨child, _ | ⟨other, children⟩⟩
      · exact absurd rfl filled
      · exact absurd rfl (notOne child)
      · exact Nat.succ_lt_succ (Nat.succ_pos _)
  | case5 symbol literal env operator role leftChild rightChild error failed onLeft =>
      rw [failed] at onLeft
      exact onLeft.of_comesTo (.onLeft role .here) (by simp)
  | case6 symbol literal env operator role leftChild rightChild lacking onLeft =>
      rw [lacking] at onLeft
      exact onLeft.of_comesTo (.onLeft role .here) (by simp)
  | case7 symbol literal env operator role leftChild rightChild left passed error failed onLeft
      onRight =>
      rw [passed] at onLeft
      rw [failed] at onRight
      exact onRight.of_comesTo (.onRight role onLeft .here) (by simp)
  | case8 symbol literal env operator role leftChild rightChild left passed lacking onLeft
      onRight =>
      rw [passed] at onLeft
      rw [lacking] at onRight
      exact onRight.of_comesTo (.onRight role onLeft .here) (by simp)
  | case9 symbol literal env operator role leftChild rightChild left passed right ended onLeft
      onRight =>
      rw [passed] at onLeft
      rw [ended] at onRight
      exact explains_combine role onLeft onRight
  | case10 symbol literal children env operator role notTwo =>
      refine ⟨_, .here, .operation role ?_⟩
      intro two
      rcases List.length_eq_two.mp two with ⟨left, right, both⟩
      exact notTwo left right both
  | case11 symbol literal children env role => exact explains_constant role
  | case12 symbol literal children env role => exact explains_parameter role

/-- An answer is the evaluator's exactly when there is a reason for it. -/
theorem evaluate_eq_iff {tree : Tree Int64} {answer : Evaluated Int64} :
    arithmetic.evaluate tree env = answer ↔ arithmetic.Explains env tree answer := by
  constructor
  · rintro rfl
    exact explains_evaluate arithmetic env tree
  · intro explained
    rcases answer with error | _ | word
    · rcases explained with ⟨part, comes, fails⟩
      have ended := fails.evaluate_eq
      rw [comes.evaluate_eq (by simp [ended]), ended]
    · rcases explained with ⟨part, comes, lacks⟩
      have ended : arithmetic.evaluate part env = .ok none := lacks.evaluate_eq
      rw [comes.evaluate_eq (by simp [ended]), ended]
    · exact HasValue.evaluate_eq explained

end Arithmetic
end ProgramSearch
