import ProgramSearch.Word

namespace ProgramSearch

/-!
# Operations that refuse to overflow

Each operation computes the exact integer result and answers with it when it
fits in 64 bits, and with nothing otherwise.
-/

/-- The operations with two operands. -/
inductive BinaryOperator where
  | add
  | minus
  | mult
deriving DecidableEq

namespace BinaryOperator

/-- The result over all integers. -/
def exact : BinaryOperator → Int → Int → Int
  | add => (· + ·)
  | minus => (· - ·)
  | mult => (· * ·)

/-- The result, if it fits. -/
def result? (operator : BinaryOperator) (left right : Int64) : Option Int64 :=
  word? (operator.exact left.toInt right.toInt)

/-- The name under which an operation is reported. -/
def name : BinaryOperator → String
  | add => "Add"
  | minus => "Minus"
  | mult => "Mult"

end BinaryOperator

end ProgramSearch
