import ProgramSearch.Arithmetic.Expression
import ProgramSearch.Tree.Building

namespace ProgramSearch

/-!
# Well-formed nodes and exact values

Any tree can be given to the evaluator, with any symbols and any numbers of children.  A node
is well formed if it has as many children as its category asks for and the literal it reads.
The exact value of a tree is computed over the integers, whether they fit in words or not.
-/

namespace Category

/-- The number of children of a node. -/
def arity : Category → Nat
  | start => 1
  | exp => 1
  | add => 2
  | minus => 2
  | mult => 2
  | const => 0
  | param => 0

/-- A constant has a literal, and that of a parameter is the position of an argument. -/
def Reads (env : Env Int64) (literal : Option Int64) : Category → Prop
  | const => ∃ word, literal = some word
  | param => ∃ index, literal = some index ∧ 0 ≤ index.toInt ∧ index.toInt < env.length
  | _ => True

/-- The integer that a well-formed node stands for, from those of its children. -/
def value (env : Env Int64) (literal : Option Int64) : Category → List Int → Int
  | start, [inside] => inside
  | exp, [inside] => inside
  | add, [left, right] => left + right
  | minus, [left, right] => left - right
  | mult, [left, right] => left * right
  | const, [] => (literal.map Int64.toInt).getD 0
  | param, [] =>
      ((literal.bind fun index => env.arguments[index.toInt.toNat]?).map Int64.toInt).getD 0
  | _, _ => 0

end Category

namespace Arithmetic

/-- The node is one of the arithmetic, with the children and the literal that it needs. -/
def WellFormed (arithmetic : Arithmetic) (env : Env Int64) (node : Tree Int64) : Prop :=
  ∃ category, arithmetic.category? node.symbol = some category ∧
    node.children.length = category.arity ∧ category.Reads env node.literal

mutual

/-- The integer that a tree stands for when every parameter stands for its argument. -/
def exactValue (arithmetic : Arithmetic) (env : Env Int64) : Tree Int64 → Int
  | .node symbol literal children =>
      match arithmetic.category? symbol with
      | none => 0
      | some category => category.value env literal (forestExactValues arithmetic env children)

/-- The integers that several trees stand for. -/
def forestExactValues (arithmetic : Arithmetic) (env : Env Int64) : List (Tree Int64) → List Int
  | [] => []
  | tree :: trees => exactValue arithmetic env tree :: forestExactValues arithmetic env trees

end

/-- If the node stands for an operation, its exact value fits. -/
def OperationFits (arithmetic : Arithmetic) (env : Env Int64) (node : Tree Int64) : Prop :=
  ∀ operator : BinaryOperator, arithmetic.category? node.symbol = some operator.category →
    Fits (arithmetic.exactValue env node)

end Arithmetic

end ProgramSearch
