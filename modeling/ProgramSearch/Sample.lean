import ProgramSearch.Grammar.Symbol

namespace ProgramSearch

/-!
# The behaviour to be found, and the literals to find it with
-/

universe u

/-- One expected output for one list of inputs. -/
structure Sample (V : Type u) where
  output : V
  inputs : List V
deriving DecidableEq

namespace Sample

variable {V : Type u}

def input? (sample : Sample V) (index : Nat) : Option V :=
  sample.inputs[index]?

def inputCount (sample : Sample V) : Nat :=
  sample.inputs.length

end Sample

/-- The literals a terminal leaf may carry.  A symbol whose list is empty is no
hole: its leaves stay without a literal. -/
abbrev Filler (V : Type u) :=
  Symbol → Sample V → List V

end ProgramSearch
