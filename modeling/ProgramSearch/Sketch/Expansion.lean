import ProgramSearch.Tree.Path

namespace ProgramSearch

/-!
# Expanding a sketch by one rule

A sketch is expanded at one nonterminal leaf at a time.  The leaf receives the
symbols of one alternative as its children.  An empty alternative adds none and
gives back the sketch itself.
-/

universe u

variable {V : Type u}

namespace Grammar

/-- The sketch with the leaf at the path expanded by each alternative in turn. -/
def expansionsAt (grammar : Grammar) (sketch : Tree V) (path : List Nat) : List (Tree V) :=
  match sketch.descendant? path with
  | none => []
  | some leaf =>
      (grammar.alternatives leaf.symbol).filterMap fun body =>
        sketch.updateAt? (Tree.addChildren (body.map Tree.leaf)) path

/-- Every expansion by one rule: leaf by leaf from the left, and for each leaf
alternative by alternative. -/
def expansions (grammar : Grammar) (sketch : Tree V) : List (Tree V) :=
  (sketch.nonterminalLeafPaths grammar).flatMap (grammar.expansionsAt sketch)

/-- Whether nothing is left to expand. -/
def isComplete (grammar : Grammar) (sketch : Tree V) : Bool :=
  (sketch.nonterminalLeafPaths grammar).isEmpty

end Grammar

end ProgramSearch
