import ProgramSearch.Error
import ProgramSearch.Tree.Basic

namespace ProgramSearch

/-!
# Values of programs

A program is evaluated over positional arguments.  The answer is a value, or no
value for a program with unexpanded parts, or an error.
-/

universe u

/-- The arguments that parameter leaves refer to by position. -/
structure Env (V : Type u) where
  arguments : List V
deriving DecidableEq

namespace Env

variable {V : Type u}

def empty : Env V :=
  ⟨[]⟩

/-- Add arguments behind those already there. -/
def add (env : Env V) (arguments : List V) : Env V :=
  ⟨env.arguments ++ arguments⟩

def length (env : Env V) : Nat :=
  env.arguments.length

/-- The argument at a position. -/
def lookup (env : Env V) (index : Nat) : Except EvalError V :=
  match env.arguments[index]? with
  | none => .error (.parameterOutOfRange index env.length)
  | some value => .ok value

end Env

/-- What an evaluator answers for a program. -/
abbrev Evaluated (V : Type u) :=
  Except EvalError (Option V)

/-- The meaning of a language: the value of each tree over given arguments. -/
abbrev Evaluator (V : Type u) :=
  Tree V → Env V → Evaluated V

end ProgramSearch
