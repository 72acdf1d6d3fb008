import ProgramSearch.Arithmetic.Basic

namespace ProgramSearch

/-!
# Arithmetic over the integers

The exact value of a program does without 64-bit words: operations are those of
the integers, and their results are merely required to fit.  The values within
reach of given constants and inputs are those obtained by operations that fit.
-/

/-- The integer lies in the range of 64-bit words. -/
def Fits (value : Int) : Prop :=
  Int64.minValue.toInt ≤ value ∧ value ≤ Int64.maxValue.toInt

namespace Arithmetic

/-- A well-formed program with the integer it stands for, in which every operation
has a result that fits. -/
inductive HasValue (arithmetic : Arithmetic) (env : Env Int64) : Tree Int64 → Int → Prop where
  | wrapper {symbol : Symbol} {literal : Option Int64} {child : Tree Int64} {value : Int}
      (role : arithmetic.role? symbol = some .wrapper)
      (inside : HasValue arithmetic env child value) :
      HasValue arithmetic env (.node symbol literal [child]) value
  | operation {symbol : Symbol} {literal : Option Int64} {operator : BinaryOperator}
      {leftChild rightChild : Tree Int64} {left right : Int}
      (role : arithmetic.role? symbol = some (.binary operator))
      (onLeft : HasValue arithmetic env leftChild left)
      (onRight : HasValue arithmetic env rightChild right)
      (fits : Fits (operator.exact left right)) :
      HasValue arithmetic env (.node symbol literal [leftChild, rightChild])
        (operator.exact left right)
  | constant {symbol : Symbol} {word : Int64} {children : List (Tree Int64)}
      (role : arithmetic.role? symbol = some .constant) :
      HasValue arithmetic env (.node symbol (some word) children) word.toInt
  | parameter {symbol : Symbol} {index argument : Int64} {children : List (Tree Int64)}
      (role : arithmetic.role? symbol = some .parameter)
      (natural : 0 ≤ index.toInt)
      (found : env.arguments[index.toInt.toNat]? = some argument) :
      HasValue arithmetic env (.node symbol (some index) children) argument.toInt

end Arithmetic

/-- The integers obtained from given words by sums, differences and products that fit. -/
inductive WithinReach (given : List Int64) : Int → Prop where
  | given {word : Int64} (member : word ∈ given) : WithinReach given word.toInt
  | sum {left right : Int} (onLeft : WithinReach given left) (onRight : WithinReach given right)
      (fits : Fits (left + right)) : WithinReach given (left + right)
  | difference {left right : Int} (onLeft : WithinReach given left)
      (onRight : WithinReach given right) (fits : Fits (left - right)) :
      WithinReach given (left - right)
  | product {left right : Int} (onLeft : WithinReach given left)
      (onRight : WithinReach given right) (fits : Fits (left * right)) :
      WithinReach given (left * right)

/-- Every word fits. -/
theorem fits_toInt (word : Int64) : Fits word.toInt :=
  ⟨Int64.minValue_le_toInt word, Int64.toInt_le word⟩

end ProgramSearch
