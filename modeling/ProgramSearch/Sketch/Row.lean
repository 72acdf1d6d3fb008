import ProgramSearch.Sketch.Filling
import ProgramSearch.Tree.Shape

namespace ProgramSearch

/-!
# Sketches filled with a row of literals

A row has one literal for each hole of a sketch.  What it makes of the sketch is said path by
path: the holes carry the literals of the row, and everything else is as it was.  How a
sketch is filled is said hole by hole, and every hole must be met by a digit that names one of
its literals and by a path that leads to a node.
-/

universe u

variable {V : Type u}

/-- The program is the sketch with the literals of the row in its holes. -/
structure FilledWith (sketch : Tree V) (holes : List (Hole V)) (row : List V)
    (program : Tree V) : Prop where
  /-- Symbols and numbers of children are the same at all paths. -/
  shape : ∀ path,
    (program.descendant? path).map Tree.frame = (sketch.descendant? path).map Tree.frame
  /-- Each hole carries the literal of its place in the row. -/
  placed : (holes.map fun hole => (program.descendant? hole.path).map Tree.literal) =
    row.map fun value => some (some value)
  /-- All other nodes carry what they carried. -/
  kept : ∀ path, path ∉ holes.map Hole.path →
    (program.descendant? path).map Tree.literal = (sketch.descendant? path).map Tree.literal

/-- The last tree comes of the first one by filling the holes one after another. -/
inductive FilledInTurn : List (Hole V) → List Nat → Tree V → Tree V → Prop where
  | done (program : Tree V) : FilledInTurn [] [] program program
  | fill {hole : Hole V} {holes : List (Hole V)} {digit : Nat} {digits : List Nat} {value : V}
      {program filled last : Tree V}
      (chosen : hole.choices[digit]? = some value)
      (reached : program.updateAt? (Tree.withLiteral value) hole.path = some filled)
      (others : FilledInTurn holes digits filled last) :
      FilledInTurn (hole :: holes) (digit :: digits) program last

end ProgramSearch
