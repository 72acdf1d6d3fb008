import ProgramSearch.Arithmetic.Exact
import ProgramSearch.Tree.Path

namespace ProgramSearch

/-!
# Expressions and their trees

An expression is what an arithmetic program says once the wrappers around its parts are
taken away.  Every expression is written as one tree, and its value needs neither symbols
nor literals that may be missing.
-/

/-- The category of the nodes of an operation. -/
def BinaryOperator.category : BinaryOperator → Category
  | add => .add
  | minus => .minus
  | mult => .mult

/-- Constants, arguments given by position, and operations. -/
inductive Expression where
  | constant (word : Int64)
  | parameter (index : Int64)
  | operation (operator : BinaryOperator) (left right : Expression)
deriving DecidableEq

namespace Expression

/-- The tree of an expression, whose root is an `exp` node. -/
def tree (arithmetic : Arithmetic) : Expression → Tree Int64
  | constant word =>
      .node (arithmetic.symbol .exp) none [.node (arithmetic.symbol .const) (some word) []]
  | parameter index =>
      .node (arithmetic.symbol .exp) none [.node (arithmetic.symbol .param) (some index) []]
  | operation operator left right =>
      .node (arithmetic.symbol .exp) none
        [.node (arithmetic.symbol operator.category) none
          [left.tree arithmetic, right.tree arithmetic]]

/-- The program that consists of an expression. -/
def program (arithmetic : Arithmetic) (expression : Expression) : Tree Int64 :=
  .node (arithmetic.symbol .start) none [expression.tree arithmetic]

/-- The expression has constants from a list and refers to a number of arguments. -/
inductive Over (constants : List Int64) (count : Nat) : Expression → Prop where
  | constant {word : Int64} (member : word ∈ constants) : Over constants count (.constant word)
  | parameter {index : Int64} (natural : 0 ≤ index.toInt) (within : index.toInt < count) :
      Over constants count (.parameter index)
  | operation {operator : BinaryOperator} {left right : Expression}
      (onLeft : Over constants count left) (onRight : Over constants count right) :
      Over constants count (.operation operator left right)

/-- The value of an expression over given arguments, if every argument is there and the
result of every operation fits. -/
def value? (arguments : List Int64) : Expression → Option Int64
  | constant word => some word
  | parameter index => arguments[index.toInt.toNat]?
  | operation operator left right =>
      (left.value? arguments).bind fun leftValue =>
        (right.value? arguments).bind (operator.result? leftValue)

/-- The number of operations. -/
def operationCount : Expression → Nat
  | constant _ => 0
  | parameter _ => 0
  | operation _ left right => left.operationCount + right.operationCount + 1

end Expression

namespace Arithmetic

mutual

/-- The number of nodes that stand for an operation. -/
def operationCount (arithmetic : Arithmetic) : Tree Int64 → Nat
  | .node symbol _ children =>
      (match arithmetic.role? symbol with
        | some (.binary _) => 1
        | _ => 0) + forestOperationCount arithmetic children

/-- The number of nodes that stand for an operation in several trees. -/
def forestOperationCount (arithmetic : Arithmetic) : List (Tree Int64) → Nat
  | [] => 0
  | tree :: trees => operationCount arithmetic tree + forestOperationCount arithmetic trees

end

/-- Some node of the program is an operation on two operands with values, whose exact result
does not fit. -/
def OverflowsOn (arithmetic : Arithmetic) (env : Env Int64) (program : Tree Int64)
    (operator : BinaryOperator) (left right : Int64) : Prop :=
  ∃ path symbol literal leftChild rightChild,
    program.descendant? path = some (.node symbol literal [leftChild, rightChild]) ∧
      arithmetic.role? symbol = some (.binary operator) ∧
      arithmetic.evaluate leftChild env = .ok (some left) ∧
      arithmetic.evaluate rightChild env = .ok (some right) ∧
      ¬ Fits (operator.exact left.toInt right.toInt)

/-- The program faults at an operation that overflows. -/
def Faults (arithmetic : Arithmetic) (env : Env Int64) (program : Tree Int64) : Prop :=
  ∃ operator left right,
    arithmetic.evaluate program env =
        .error (ArithmeticFault.overflow operator left right).toError ∧
      arithmetic.OverflowsOn env program operator left right

/-- The program has a value, or without one it faults at an operation that overflows. -/
def Means (arithmetic : Arithmetic) (env : Env Int64) (program : Tree Int64) :
    Option Int64 → Prop
  | some value => arithmetic.evaluate program env = .ok (some value)
  | none => arithmetic.Faults env program

end Arithmetic

end ProgramSearch
