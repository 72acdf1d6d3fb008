import Mathlib.Data.ENat.Lattice
import Mathlib.Order.CompletePartialOrder
import ProgramSearch.Enumeration
import ProgramSearch.Sketch.Completion
import ProgramSearch.Sketch.Rewriting

namespace ProgramSearch

/-!
# The order of the worklist, level by level

Level zero holds the start symbol alone, and each further level the rewritings of the
level before it, in order.  The levels one after another are the sequence in which
sketches come up, however far an enumeration gets.  Rewritings and completions are
those defined by recursion on a sketch, so nothing here depends on paths, digits or a
queue.
-/

universe u

variable {V : Type u}

namespace Grammar

/-- The sketches reached by a number of rewritings, in order and with repetition. -/
def level (grammar : Grammar) : Nat → List (Tree V)
  | 0 => [Tree.leaf grammar.start]
  | count + 1 => (grammar.level count).flatMap (Tree.rewrites grammar)

/-- The levels below a number, one after another. -/
def levelsBelow (grammar : Grammar) (count : Nat) : List (Tree V) :=
  (List.range count).flatMap grammar.level

/-- The first sketches of the sequence of all levels, or all of them if there are
fewer.  As many levels hold at least as many sketches, unless they have run dry. -/
def firstSketches (grammar : Grammar) (count : Nat) : List (Tree V) :=
  (grammar.levelsBelow count).take count

/-- The number of sketches in all levels together. -/
noncomputable def sketchCount (V : Type u) (grammar : Grammar) : ℕ∞ :=
  ⨆ count, ((grammar.levelsBelow count : List (Tree V)).length : ℕ∞)

/-- A further level comes behind all levels before it. -/
theorem levelsBelow_succ (grammar : Grammar) (count : Nat) :
    (grammar.levelsBelow (count + 1) : List (Tree V)) =
      grammar.levelsBelow count ++ grammar.level count := by
  simp [levelsBelow, List.range_succ]

end Grammar

namespace Problem

/-- The programs that complete a sketch, if nothing in it is left to expand. -/
def completions (problem : Problem V) (sketch : Tree V) : List (Tree V) :=
  if (sketch.nonterminalLeaves problem.grammar).isEmpty then
    sketch.completions problem.filler problem.sample
  else []

end Problem

end ProgramSearch
