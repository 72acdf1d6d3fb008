import ProgramSearch.Odometer
import ProgramSearch.Sample
import ProgramSearch.Tree.Path

namespace ProgramSearch

/-!
# Completing a sketch with literals

The holes of a sketch are the leaves for which the filler offers literals.  A
filling runs through all ways to choose one literal per hole, the first hole
turning fastest.  A sketch without holes is completed in one way, as it is.
-/

universe u

variable {V : Type u}

/-- A leaf and the literals it may carry. -/
structure Hole (V : Type u) where
  path : List Nat
  choices : List V

/-- The leaf at a path as a hole, if the filler offers anything for it. -/
def holeAt? (filler : Filler V) (sample : Sample V) (sketch : Tree V) (path : List Nat) :
    Option (Hole V) :=
  match sketch.descendant? path with
  | none => none
  | some leaf =>
      let choices := filler leaf.symbol sample
      if choices.isEmpty then none else some ⟨path, choices⟩

/-- The holes of a sketch, left to right. -/
def holes (filler : Filler V) (sample : Sample V) (sketch : Tree V) : List (Hole V) :=
  sketch.leafPaths.filterMap (holeAt? filler sample sketch)

/-- Put the literal of a given number into a hole. -/
def Hole.fill (hole : Hole V) (digit : Nat) (program : Tree V) : Tree V :=
  match hole.choices[digit]? with
  | none => program
  | some value => (program.updateAt? (Tree.withLiteral value) hole.path).getD program

/-- Fill every hole, each with the literal its digit selects. -/
def fillHoles : List (Hole V) → List Nat → Tree V → Tree V
  | hole :: holes, digit :: digits, program =>
      fillHoles holes digits (hole.fill digit program)
  | _, _, program => program

/-- A sketch, its holes, and the choices still to be made. -/
structure Filling (V : Type u) where
  sketch : Tree V
  holes : List (Hole V)
  odometer : Odometer

namespace Filling

/-- The filling that has produced nothing yet. -/
def ofSketch (filler : Filler V) (sample : Sample V) (sketch : Tree V) : Filling V :=
  let found := ProgramSearch.holes filler sample sketch
  ⟨sketch, found, Odometer.ofRadices (found.map fun hole => hole.choices.length)⟩

/-- The next completed program, with the filling that remains. -/
def next? (filling : Filling V) : Option (Tree V × Filling V) :=
  match filling.odometer.next? with
  | none => none
  | some (digits, rest) =>
      some (fillHoles filling.holes digits filling.sketch, { filling with odometer := rest })

/-- What remains after a number of calls for the next program.  Once there is none, a call
changes nothing. -/
def after : Nat → Filling V → Filling V
  | 0, filling => filling
  | count + 1, filling =>
      match filling.next? with
      | none => filling
      | some (_, rest) => rest.after count

/-- The number of programs still to come. -/
def remaining (filling : Filling V) : Nat :=
  filling.odometer.remaining

theorem remaining_next?_lt {filling rest : Filling V} {program : Tree V}
    (shown : filling.next? = some (program, rest)) : rest.remaining < filling.remaining := by
  unfold next? at shown
  split at shown
  · simp at shown
  · rename_i digits odometer turned
    simp only [Option.some.injEq, Prod.mk.injEq] at shown
    rcases shown with ⟨-, rfl⟩
    exact Odometer.remaining_next?_lt turned

/-- The programs still to come, in order. -/
def toList (filling : Filling V) : List (Tree V) :=
  filling.odometer.toList.map fun digits => fillHoles filling.holes digits filling.sketch

end Filling

end ProgramSearch
