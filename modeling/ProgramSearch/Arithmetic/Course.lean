import ProgramSearch.Arithmetic.Exact

namespace ProgramSearch
namespace Arithmetic

/-!
# The course of an evaluation

An evaluation goes down the wrappers and through the operands from left to right, and comes to
a right operand only if the left one has a value.  It ends at the first part that has no value
of its own accord: one that lacks children, or one that fails.
-/

variable (arithmetic : Arithmetic) (env : Env Int64)

/-- The evaluation of the tree comes to the part. -/
inductive ComesTo : Tree Int64 → Tree Int64 → Prop where
  | here {tree : Tree Int64} : ComesTo tree tree
  | inside {symbol : Symbol} {literal : Option Int64} {child part : Tree Int64}
      (role : arithmetic.role? symbol = some .wrapper) (below : ComesTo child part) :
      ComesTo (.node symbol literal [child]) part
  | onLeft {symbol : Symbol} {literal : Option Int64} {operator : BinaryOperator}
      {leftChild rightChild part : Tree Int64}
      (role : arithmetic.role? symbol = some (.binary operator))
      (below : ComesTo leftChild part) :
      ComesTo (.node symbol literal [leftChild, rightChild]) part
  | onRight {symbol : Symbol} {literal : Option Int64} {operator : BinaryOperator}
      {leftChild rightChild part : Tree Int64} {left : Int}
      (role : arithmetic.role? symbol = some (.binary operator))
      (passed : arithmetic.HasValue env leftChild left) (below : ComesTo rightChild part) :
      ComesTo (.node symbol literal [leftChild, rightChild]) part

/-- The node is a wrapper around nothing or an operation without two operands. -/
inductive Lacks : Tree Int64 → Prop where
  | wrapper {symbol : Symbol} {literal : Option Int64}
      (role : arithmetic.role? symbol = some .wrapper) : Lacks (.node symbol literal [])
  | operation {symbol : Symbol} {literal : Option Int64} {children : List (Tree Int64)}
      {operator : BinaryOperator} (role : arithmetic.role? symbol = some (.binary operator))
      (operands : children.length ≠ 2) : Lacks (.node symbol literal children)

/-- The node itself is to blame for an error. -/
inductive Fails : Tree Int64 → EvalError → Prop where
  | foreign {symbol : Symbol} {literal : Option Int64} {children : List (Tree Int64)}
      (role : arithmetic.role? symbol = none) :
      Fails (.node symbol literal children)
        (ArithmeticFault.foreignSymbol (arithmetic.grammar.name symbol)).toError
  | several {symbol : Symbol} {literal : Option Int64} {children : List (Tree Int64)}
      (role : arithmetic.role? symbol = some .wrapper) (many : 1 < children.length) :
      Fails (.node symbol literal children)
        (ArithmeticFault.wrapsSeveral (arithmetic.grammar.name symbol) children.length).toError
  | overflow {symbol : Symbol} {literal : Option Int64} {operator : BinaryOperator}
      {leftChild rightChild : Tree Int64} {left right : Int64}
      (role : arithmetic.role? symbol = some (.binary operator))
      (onLeft : arithmetic.HasValue env leftChild left.toInt)
      (onRight : arithmetic.HasValue env rightChild right.toInt)
      (outside : ¬ Fits (operator.exact left.toInt right.toInt)) :
      Fails (.node symbol literal [leftChild, rightChild])
        (ArithmeticFault.overflow operator left right).toError
  | missingLiteral {symbol : Symbol} {children : List (Tree Int64)}
      (role : arithmetic.role? symbol = some .constant ∨
        arithmetic.role? symbol = some .parameter) :
      Fails (.node symbol none children) (.missingLiteral (arithmetic.grammar.name symbol))
  | negativeIndex {symbol : Symbol} {index : Int64} {children : List (Tree Int64)}
      (role : arithmetic.role? symbol = some .parameter) (negative : index.toInt < 0) :
      Fails (.node symbol (some index) children) (ArithmeticFault.negativeIndex index).toError
  | outOfRange {symbol : Symbol} {index : Int64} {children : List (Tree Int64)}
      (role : arithmetic.role? symbol = some .parameter) (natural : 0 ≤ index.toInt)
      (beyond : env.length ≤ index.toInt.toNat) :
      Fails (.node symbol (some index) children)
        (.parameterOutOfRange index.toInt.toNat env.length)

/-- Why the evaluation of a tree answers as it does: with the value of the tree, or because of
the part at which it ends. -/
def Explains (tree : Tree Int64) : Evaluated Int64 → Prop
  | .ok (some word) => arithmetic.HasValue env tree word.toInt
  | .ok none => ∃ part, arithmetic.ComesTo env tree part ∧ arithmetic.Lacks part
  | .error error => ∃ part, arithmetic.ComesTo env tree part ∧ arithmetic.Fails env part error

end Arithmetic
end ProgramSearch
