import ProgramSearch.Sample
import ProgramSearch.Tree.Basic

namespace ProgramSearch
namespace Grammar

/-!
# Which trees belong to a grammar

A tree is derived when the children of every inner node spell an alternative of
its symbol.  A sketch is a derived tree from the start symbol without literals,
and a program is one whose leaves are terminals and carry what the filler offers.
Nothing here refers to the way in which trees are found.
-/

universe u

variable {V : Type u}

/-- Every inner node spells, with its children's symbols, an alternative of its own
symbol, and carries no literal. -/
inductive Derived (grammar : Grammar) : Tree V → Prop where
  | leaf (symbol : Symbol) (literal : Option V) :
      Derived grammar (.node symbol literal [])
  | branch (symbol : Symbol) (children : List (Tree V))
      (inner : children ≠ [])
      (spelled : children.map Tree.symbol ∈ grammar.alternatives symbol)
      (below : ∀ child ∈ children, Derived grammar child) :
      Derived grammar (.node symbol none children)

/-- A partial program, still without any literal. -/
structure IsSketch (grammar : Grammar) (tree : Tree V) : Prop where
  root : tree.symbol = grammar.start
  derived : grammar.Derived tree
  bare : ∀ leaf ∈ tree.leaves, leaf.literal = none

/-- A leaf carries one of the literals offered for it, and none if none is offered. -/
def CarriesOffered (offered : List V) : Option V → Prop
  | none => offered = []
  | some value => value ∈ offered

/-- A complete program: nothing is left to expand and every hole is filled. -/
structure IsProgram (grammar : Grammar) (filler : Filler V) (sample : Sample V)
    (tree : Tree V) : Prop where
  root : tree.symbol = grammar.start
  derived : grammar.Derived tree
  terminal : ∀ leaf ∈ tree.leaves, grammar.isTerminal leaf.symbol = true
  filled : ∀ leaf ∈ tree.leaves, CarriesOffered (filler leaf.symbol sample) leaf.literal

/-- Some derived tree leads from the symbol to terminals only. -/
def Completable (grammar : Grammar) (symbol : Symbol) : Prop :=
  ∃ tree : Tree Unit, tree.symbol = symbol ∧ grammar.Derived tree ∧
    ∀ leaf ∈ tree.leaves, grammar.isTerminal leaf.symbol = true

/-- The second symbol occurs in an alternative of the first. -/
def Mentions (grammar : Grammar) (head symbol : Symbol) : Prop :=
  ∃ body ∈ grammar.alternatives head, symbol ∈ body

/-- The symbol is the start symbol or is mentioned, through any number of heads,
from there. -/
def Reachable (grammar : Grammar) (symbol : Symbol) : Prop :=
  symbol = grammar.start ∨ Relation.TransGen grammar.Mentions grammar.start symbol

/-- Whatever is within reach of the start symbol can be looked up. -/
def WithinTable (grammar : Grammar) : Prop :=
  ∀ symbol, grammar.Reachable symbol → grammar.Admits symbol

/-- A subtree of a derived tree is derived. -/
theorem Derived.child {grammar : Grammar} {symbol : Symbol} {literal : Option V}
    {children : List (Tree V)} (derived : grammar.Derived (.node symbol literal children))
    {child : Tree V} (member : child ∈ children) : grammar.Derived child := by
  cases derived with
  | leaf => cases member
  | branch _ _ _ _ below => exact below child member

end Grammar
end ProgramSearch
