import ProgramSearch.Grammar.Lookup
import ProgramSearch.Tree.Path
import ProgramSearch.Tree.Text

namespace ProgramSearch
namespace Tree

/-!
# Questions about a tree that may break off

Which leaves can still be expanded is a question to a grammar, asked of every leaf from the left,
and to print a tree is to ask for the label of every node.  One symbol that the grammar does not
admit is enough to break off all of it.
-/

universe u v

variable {V : Type u}

/-- What comes of asking a grammar about every leaf. -/
def askLeaves? {X : Type v} (grammar : Grammar) (answer : Tree V → X) (tree : Tree V) : Option X :=
  if ∀ leaf ∈ tree.leaves, (grammar.isNonterminal? leaf.symbol).isSome then some (answer tree)
  else none

/-- The leaves that the grammar can still expand. -/
def nonterminalLeaves? (grammar : Grammar) (tree : Tree V) : Option (List (Tree V)) :=
  tree.askLeaves? grammar (nonterminalLeaves grammar)

/-- The paths of the leaves that the grammar can still expand. -/
def nonterminalLeafPaths? (grammar : Grammar) (tree : Tree V) : Option (List (List Nat)) :=
  tree.askLeaves? grammar (nonterminalLeafPaths grammar)

/-- Change the nonterminal leaf of a given number, if there is one. -/
def editNonterminalLeaf? (grammar : Grammar) (change : Tree V → Tree V) (number : Nat)
    (tree : Tree V) : Option (Option (Tree V)) :=
  tree.askLeaves? grammar (updateNonterminalLeaf? grammar change number)

mutual

/-- The symbols of all nodes. -/
def symbols : Tree V → List Symbol
  | node symbol _ children => symbol :: forestSymbols children

/-- The symbols of all nodes of several trees. -/
def forestSymbols : List (Tree V) → List Symbol
  | [] => []
  | tree :: trees => tree.symbols ++ forestSymbols trees

end

/-- What comes of asking a grammar for the label of every node. -/
def print? (grammar : Grammar) (print : Tree V → String) (tree : Tree V) : Option String :=
  if ∀ symbol ∈ tree.symbols, (grammar.name? symbol).isSome then some (print tree) else none

def text? [LiteralText V] (grammar : Grammar) (tree : Tree V) : Option String :=
  tree.print? grammar (text grammar)

def indentedText? [LiteralText V] (grammar : Grammar) (tree : Tree V) : Option String :=
  tree.print? grammar (indentedText grammar)

/-- A grammar that admits the symbols of all leaves answers. -/
theorem askLeaves?_of_admits {X : Type v} {grammar : Grammar} {tree : Tree V}
    (admits : ∀ leaf ∈ tree.leaves, grammar.Admits leaf.symbol) (answer : Tree V → X) :
    tree.askLeaves? grammar answer = some (answer tree) := by
  refine if_pos fun leaf member => ?_
  rw [Grammar.isNonterminal?_of_admits (admits leaf member)]
  rfl

/-- One leaf past the table breaks everything off, unless it is the start symbol. -/
theorem askLeaves?_eq_none {X : Type v} {grammar : Grammar} {tree leaf : Tree V}
    (member : leaf ∈ tree.leaves) (other : leaf.symbol ≠ grammar.start)
    (past : ¬ grammar.Admits leaf.symbol) (answer : Tree V → X) :
    tree.askLeaves? grammar answer = none := by
  refine if_neg fun answered => ?_
  have broken : grammar.isNonterminal? leaf.symbol = none := by
    rw [Grammar.isNonterminal?, Grammar.isTerminal?, if_neg other,
      Grammar.alternatives?_eq_none_iff.mpr past]
    rfl
  have present := answered leaf member
  rw [broken] at present
  cases present

end Tree
end ProgramSearch
