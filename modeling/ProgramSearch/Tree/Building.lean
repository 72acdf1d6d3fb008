import ProgramSearch.Tree.Path

namespace ProgramSearch
namespace Tree

/-!
# Trees as they are built

A tree starts as a single node.  From then on a literal is attached to it, built trees become
its children, a part is taken out of it, or a part is worked on where it stands.  Whoever works
on a part may leave any built tree in its place, so all work on one part counts as one
replacement.
-/

universe u

variable {V : Type u}

/-- How the part to be worked on is named: by its path, by its number among all leaves, or by
its number among the leaves that a grammar can still expand. -/
inductive Place where
  | path (path : List Nat)
  | leaf (number : Nat)
  | nonterminalLeaf (grammar : Grammar) (number : Nat)

/-- Change the part at a place. -/
def updatePlace? (change : Tree V → Tree V) : Place → Tree V → Option (Tree V)
  | .path path => updateAt? change path
  | .leaf number => updateLeaf? change number
  | .nonterminalLeaf grammar number => updateNonterminalLeaf? grammar change number

/-- The trees that come out of some sequence of operations. -/
inductive Built : Tree V → Prop where
  | leaf (symbol : Symbol) : Built (Tree.leaf symbol)
  | withLiteral (value : V) {tree : Tree V} (built : Built tree) :
      Built (tree.withLiteral value)
  | addChildren {tree : Tree V} {added : List (Tree V)} (built : Built tree)
      (each : ∀ child ∈ added, Built child) : Built (tree.addChildren added)
  | part {tree part : Tree V} {path : List Nat} (built : Built tree)
      (there : tree.descendant? path = some part) : Built part
  | replace {tree replacement result : Tree V} {place : Place} (built : Built tree)
      (other : Built replacement)
      (replaced : tree.updatePlace? (fun _ => replacement) place = some result) : Built result

/-- The property holds of the tree and of all its parts. -/
def Everywhere (property : Tree V → Prop) (tree : Tree V) : Prop :=
  ∀ path part, tree.descendant? path = some part → property part

end Tree
end ProgramSearch
