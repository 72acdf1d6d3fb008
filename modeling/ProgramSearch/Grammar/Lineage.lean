import ProgramSearch.Grammar.History
import ProgramSearch.Grammar.Lookup
import ProgramSearch.Grammar.Registry

namespace ProgramSearch

/-!
# How several grammars came about

A registry is what a sequence of steps makes of no grammar at all.  The steps tell through
which grammar each symbol was minted, and from which grammar each copy descends.  Neither
refers to identities.  A rule for a symbol past the table of its grammar breaks off the whole
sequence.
-/

/-- One step in the life of several grammars, which are named by their numbers. -/
inductive RegistryStep where
  | create (startName : String)
  | copy (index : Nat)
  | mint (index : Nat) (name : String)
  | rule (index : Nat) (head : Symbol) (body : List Symbol)
deriving DecidableEq

/-- A symbol with the number of the grammar that minted it. -/
structure Minting where
  index : Nat
  symbol : Symbol
deriving DecidableEq

namespace Registry

/-- All grammars after one more step. -/
def extend (registry : Registry) : RegistryStep → Registry
  | .create startName => registry.create startName
  | .copy index => registry.copy index
  | .mint index name =>
      match registry.mint index name with
      | none => registry
      | some (_, grown) => grown
  | .rule index head body => registry.addRule index head body

/-- All grammars that a sequence of steps leads to. -/
def build (steps : List RegistryStep) : Registry :=
  steps.foldl extend empty

/-- Add a rule to one of the grammars, which has to find its head. -/
def addRule? (registry : Registry) (index : Nat) (head : Symbol) (body : List Symbol) :
    Option Registry :=
  match registry.grammars[index]? with
  | none => some registry
  | some grammar =>
      (grammar.addRule? head body).map fun ruled =>
        { registry with grammars := registry.grammars.setIfInBounds index ruled }

/-- All grammars after one more step, unless it breaks off. -/
def extend? (registry : Registry) : RegistryStep → Option Registry
  | .rule index head body => registry.addRule? index head body
  | .create startName => some (registry.create startName)
  | .copy index => some (registry.copy index)
  | .mint index name => some (registry.extend (.mint index name))

/-- All grammars that a sequence of steps leads to, if none of the steps breaks off. -/
def build? (steps : List RegistryStep) : Option Registry :=
  steps.foldlM extend? empty

/-- A copy is overtaken by its original, which mints a symbol more.  The copy then takes a rule
for it. -/
def overtaking : List RegistryStep :=
  [.create "S", .mint 0 "t", .copy 0, .mint 0 "x", .rule 1 ⟨0, 0⟩ [⟨0, 2⟩],
    .rule 1 ⟨0, 0⟩ [⟨0, 1⟩]]

/-- The symbol that a step mints.  A new grammar mints its start symbol. -/
def minting? (registry : Registry) : RegistryStep → Option Minting
  | .create startName =>
      some ⟨registry.grammars.size, (Grammar.create registry.fresh startName).start⟩
  | .mint index name => (registry.mint index name).map fun minted => ⟨index, minted.1⟩
  | .copy _ => none
  | .rule _ _ _ => none

/-- The symbols that a sequence of steps mints, in order. -/
def mintings (registry : Registry) : List RegistryStep → List Minting
  | [] => []
  | step :: steps => (registry.minting? step).toList ++ (registry.extend step).mintings steps

/-- One step in the descent of grammars: a created grammar descends from itself, and a copy
from whatever its original descends from. -/
def descend (origins : List Nat) : RegistryStep → List Nat
  | .create _ => origins ++ [origins.length]
  | .copy index => origins ++ origins[index]?.toList
  | .mint _ _ => origins
  | .rule _ _ _ => origins

/-- For each grammar the number of the created one that it descends from. -/
def origins (steps : List RegistryStep) : List Nat :=
  steps.foldl descend []

end Registry

/-- The copy that has been overtaken: `S → x | t`, where `x` is past the table. -/
def Grammar.overtaken : Grammar :=
  .build 0 "S" [.symbol "t", .rule ⟨0, 0⟩ [⟨0, 2⟩], .rule ⟨0, 0⟩ [⟨0, 1⟩]]

theorem Registry.grammars_overtaking :
    (build? overtaking).bind (·.grammars[1]?) = some Grammar.overtaken := by decide

end ProgramSearch
