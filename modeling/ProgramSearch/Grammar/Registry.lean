import ProgramSearch.Grammar.Basic

namespace ProgramSearch

/-!
# Several grammars side by side

Grammars are told apart by identities handed out in the order of their
creation.  A copy keeps the identity of the grammar it was made from, so the two
share every symbol minted before the copy was made, and name later symbols of
equal position independently.
-/

/-- All grammars in order of appearance, and the identity the next new grammar
receives. -/
structure Registry where
  grammars : Array Grammar
  fresh : Nat
deriving DecidableEq

namespace Registry

def empty : Registry :=
  ⟨#[], 0⟩

/-- Add a grammar built over a fresh identity. -/
def add (registry : Registry) (build : Nat → Grammar) : Registry :=
  ⟨registry.grammars.push (build registry.fresh), registry.fresh + 1⟩

/-- Add a grammar that has only a start symbol. -/
def create (registry : Registry) (startName : String) : Registry :=
  registry.add fun identity => Grammar.create identity startName

/-- Add a copy of a grammar under the same identity. -/
def copy (registry : Registry) (index : Nat) : Registry :=
  match registry.grammars[index]? with
  | none => registry
  | some grammar => { registry with grammars := registry.grammars.push grammar }

/-- Mint a symbol through one of the grammars. -/
def mint (registry : Registry) (index : Nat) (name : String) : Option (Symbol × Registry) :=
  registry.grammars[index]?.map fun grammar =>
    let (symbol, grown) := grammar.mint name
    (symbol, { registry with grammars := registry.grammars.setIfInBounds index grown })

/-- Add a rule to one of the grammars. -/
def addRule (registry : Registry) (index : Nat) (head : Symbol) (body : List Symbol) :
    Registry :=
  { registry with grammars := registry.grammars.modify index (·.addRule head body) }

end Registry

end ProgramSearch
