import Mathlib.Algebra.BigOperators.Group.List.Basic
import ProgramSearch.Odometer

namespace ProgramSearch

/-!
# Positions of odometers

The position of an odometer is the number of vectors it has shown or passed over.  Numbers
between zero and the product of the radices are written with one digit per radix, the first
digit being the least significant one, and a counter of such numbers does what an odometer
does without looking at any digits.

A fleet is a row of counters or odometers that are used side by side.  Each step asks one of
them to go on, or puts a copy of one behind the others.
-/

namespace Odometer

/-- The digits of a number, one per radix.  A digit counts for the product of the radices
before it. -/
def numeral (radices : List Nat) (number : Nat) : List Nat :=
  radices.mapIdx fun place radix => number / (radices.take place).prod % radix

/-- The odometer that shows the digits of a number next, or nothing from the product of the
radices on. -/
def atPosition (radices : List Nat) (position : Nat) : Odometer where
  radices := radices
  current := if position < radices.prod then some (numeral radices position) else none

/-- The odometer has shown or passed over a number of vectors since it was made. -/
inductive HasShown (radices : List Nat) : Nat → Odometer → Prop where
  | start : HasShown radices 0 (ofRadices radices)
  | next {position : Nat} {odometer rest : Odometer} {digits : List Nat}
      (earlier : HasShown radices position odometer)
      (shown : odometer.next? = some (digits, rest)) :
      HasShown radices (position + 1) rest

end Odometer

/-- What can be asked for one vector after another, or for a vector some places on. -/
structure Counter (σ : Type) where
  next : σ → Option (List Nat) × σ
  nth : Nat → σ → Option (List Nat) × σ

namespace Counter

/-- Odometers are counters. -/
def ofOdometer : Counter Odometer where
  next odometer :=
    match odometer.next? with
    | none => (none, odometer)
    | some (digits, rest) => (some digits, rest)
  nth := Odometer.nth

/-- What a position shows some places on, with the position behind it.  Past the product of
the radices nothing is shown, and that product is the last position. -/
def skip (radices : List Nat) (count position : Nat) : Option (List Nat) × Nat :=
  if position + count < radices.prod then
    (some (Odometer.numeral radices (position + count)), position + count + 1)
  else (none, radices.prod)

/-- Positions are counters. -/
def ofPosition (radices : List Nat) : Counter Nat where
  next := skip radices 0
  nth := skip radices

end Counter

/-- One step in the use of a fleet, whose members are named by their numbers. -/
inductive FleetStep where
  | next (index : Nat)
  | nth (index count : Nat)
  | copy (index : Nat)
deriving DecidableEq

namespace Counter

variable {σ : Type} (counter : Counter σ)

/-- The answer of the member of the given number, which is replaced by what remains of it.  A
number that no member has is answered by nothing. -/
def ask (advance : σ → Option (List Nat) × σ) (index : Nat) (fleet : List σ) :
    Option (Option (List Nat)) × List σ :=
  (fleet[index]?.map fun member => (advance member).1,
    fleet.modify index fun member => (advance member).2)

/-- The answer to one step, with the fleet after it. -/
def step (fleet : List σ) : FleetStep → Option (Option (List Nat)) × List σ
  | .next index => ask counter.next index fleet
  | .nth index count => ask (counter.nth count) index fleet
  | .copy index => (none, fleet ++ fleet[index]?.toList)

/-- The fleet after a sequence of steps. -/
def after (fleet : List σ) (steps : List FleetStep) : List σ :=
  steps.foldl (fun fleet step => (counter.step fleet step).2) fleet

/-- The answers to a sequence of steps. -/
def answers (fleet : List σ) : List FleetStep → List (Option (Option (List Nat)))
  | [] => []
  | step :: steps =>
      (counter.step fleet step).1 :: answers (counter.step fleet step).2 steps

end Counter

end ProgramSearch
