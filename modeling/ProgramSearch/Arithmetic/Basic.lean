import ProgramSearch.Arithmetic.Operator
import ProgramSearch.Language
import ProgramSearch.Tree.Text

namespace ProgramSearch

/-!
# Integer arithmetic as a language

A program is an expression over constants and, if the language has them,
parameters that stand for the inputs:

    S     -> exp
    exp   -> add | minus | mult | const | param
    add   -> exp exp
    minus -> exp exp
    mult  -> exp exp

The literal of a constant is its value and the literal of a parameter is the
position of an argument.  An operation whose exact result does not fit in 64
bits is a fault, and so is anything else that only the candidate is to blame for.
-/

/-- The kinds of node, in the order in which their symbols are minted. -/
inductive Category where
  | start
  | exp
  | add
  | minus
  | mult
  | const
  | param
deriving DecidableEq

namespace Category

def name : Category → String
  | start => "S"
  | exp => "exp"
  | add => "add"
  | minus => "minus"
  | mult => "mult"
  | const => "const"
  | param => "param"

def position : Category → Nat
  | start => 0
  | exp => 1
  | add => 2
  | minus => 3
  | mult => 4
  | const => 5
  | param => 6

def ofPosition? : Nat → Option Category
  | 0 => some start
  | 1 => some exp
  | 2 => some add
  | 3 => some minus
  | 4 => some mult
  | 5 => some const
  | 6 => some param
  | _ => none

/-- Every category but the first, in minting order. -/
def others : List Category :=
  [exp, add, minus, mult, const, param]

@[simp] theorem ofPosition?_position (category : Category) :
    ofPosition? category.position = some category := by
  cases category <;> rfl

end Category

/-- What a node means: the value of its only child, an operation on its two
children, its literal, or the argument that its literal points at. -/
inductive Role where
  | wrapper
  | binary (operator : BinaryOperator)
  | constant
  | parameter
deriving DecidableEq

def Category.role : Category → Role
  | start => .wrapper
  | exp => .wrapper
  | add => .binary .add
  | minus => .binary .minus
  | mult => .binary .mult
  | const => .constant
  | param => .parameter

namespace Role

/-- The name under which a role is reported. -/
def name : Role → String
  | wrapper => "Wrapper"
  | binary operator => operator.name
  | constant => "Const"
  | parameter => "Param"

end Role

/-- What only the candidate is to blame for. -/
inductive ArithmeticFault where
  | foreignSymbol (name : String)
  | wrapsSeveral (name : String) (count : Nat)
  | overflow (operator : BinaryOperator) (left right : Int64)
  | negativeIndex (index : Int64)
deriving DecidableEq

namespace ArithmeticFault

def message : ArithmeticFault → String
  | foreignSymbol name => s!"`{name}` is not an arithmetic symbol"
  | wrapsSeveral name count => s!"`{name}` wraps {count} children"
  | overflow operator left right =>
      s!"{operator.name} overflows on {literalText left} and {literalText right}"
  | negativeIndex index => s!"negative parameter index {literalText index}"

/-- The fault as an evaluation reports it. -/
def toError (fault : ArithmeticFault) : EvalError :=
  .fault fault.message

end ArithmeticFault

/-- The language over a list of constants, with or without parameters.  The
identity is that of its grammar. -/
structure Arithmetic where
  identity : Nat
  constants : List Int64
  withParameters : Bool
deriving DecidableEq

namespace Arithmetic

/-- The symbol of a category. -/
def symbol (arithmetic : Arithmetic) (category : Category) : Symbol :=
  ⟨arithmetic.identity, category.position⟩

/-- The rules in order, the parameters as the last kind of expression. -/
def rules (arithmetic : Arithmetic) : List (Category × List Category) :=
  [(.start, [.exp]), (.exp, [.add]), (.exp, [.minus]), (.exp, [.mult]), (.exp, [.const])]
    ++ (if arithmetic.withParameters then [(.exp, [.param])] else [])
    ++ [(.add, [.exp, .exp]), (.minus, [.exp, .exp]), (.mult, [.exp, .exp])]

/-- The grammar with the symbols of all categories and no rule yet. -/
def vocabulary (arithmetic : Arithmetic) : Grammar :=
  Category.others.foldl (fun grammar category => (grammar.mint category.name).2)
    (Grammar.create arithmetic.identity Category.start.name)

/-- The grammar of the arithmetic. -/
def grammar (arithmetic : Arithmetic) : Grammar :=
  arithmetic.rules.foldl
    (fun grammar rule =>
      grammar.addRule (arithmetic.symbol rule.1) (rule.2.map arithmetic.symbol))
    arithmetic.vocabulary

/-- The category a symbol was minted for. -/
def category? (arithmetic : Arithmetic) (symbol : Symbol) : Option Category :=
  if symbol.owner = arithmetic.identity then Category.ofPosition? symbol.position else none

def role? (arithmetic : Arithmetic) (symbol : Symbol) : Option Role :=
  (arithmetic.category? symbol).map Category.role

/-- The literal a node needs. -/
def required (arithmetic : Arithmetic) (symbol : Symbol) (literal : Option Int64) :
    Except EvalError Int64 :=
  match literal with
  | none => .error (.missingLiteral (arithmetic.grammar.name symbol))
  | some value => .ok value

/-- The argument at a position given as a word. -/
def argument (env : Env Int64) (index : Int64) : Evaluated Int64 :=
  if index.toInt < 0 then
    .error (ArithmeticFault.negativeIndex index).toError
  else
    (env.lookup index.toInt.toNat).map some

/-- The value of an operation on two values. -/
def combine (operator : BinaryOperator) (left right : Int64) : Evaluated Int64 :=
  match operator.result? left right with
  | none => .error (ArithmeticFault.overflow operator left right).toError
  | some value => .ok (some value)

/-- The value of a program over given arguments.  A node that lacks children has no
value, and of two operands the left one decides first. -/
def evaluate (arithmetic : Arithmetic) : Evaluator Int64
  | .node symbol literal children, env =>
      match arithmetic.role? symbol with
      | none =>
          .error (ArithmeticFault.foreignSymbol (arithmetic.grammar.name symbol)).toError
      | some .wrapper =>
          match children with
          | [] => .ok none
          | [child] => evaluate arithmetic child env
          | _ =>
              .error (ArithmeticFault.wrapsSeveral (arithmetic.grammar.name symbol)
                children.length).toError
      | some (.binary operator) =>
          match children with
          | [leftChild, rightChild] =>
              match evaluate arithmetic leftChild env with
              | .error error => .error error
              | .ok none => .ok none
              | .ok (some left) =>
                  match evaluate arithmetic rightChild env with
                  | .error error => .error error
                  | .ok none => .ok none
                  | .ok (some right) => combine operator left right
          | _ => .ok none
      | some .constant => (arithmetic.required symbol literal).map some
      | some .parameter => (arithmetic.required symbol literal).bind (argument env)

/-- Constants are filled from the language's list and parameters with the positions
of the inputs. -/
def filler (arithmetic : Arithmetic) : Filler Int64 := fun symbol sample =>
  match arithmetic.role? symbol with
  | some .constant => arithmetic.constants
  | some .parameter =>
      (List.range sample.inputCount).filterMap fun (index : Nat) => word? index
  | _ => []

/-- The language to search in. -/
def language (arithmetic : Arithmetic) : Language Int64 :=
  ⟨arithmetic.grammar, arithmetic.evaluate, arithmetic.filler⟩

end Arithmetic

end ProgramSearch
