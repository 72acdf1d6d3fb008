namespace ProgramSearch

/-!
# A counter with one radix per digit

An odometer runs through all digit vectors below a list of radices.  The first
digit turns fastest.  Its state is the vector it shows next, or nothing once
every vector has been shown; a radix of zero allows no vector at all.

`remaining` counts the vectors still to come.  It decreases with every vector
shown, whatever the state, and bounds every loop over an odometer.
-/

/-- The radices and the digit vector to be shown next, if any is left. -/
structure Odometer where
  radices : List Nat
  current : Option (List Nat)
deriving DecidableEq

namespace Odometer

/-- The odometer that has shown nothing yet. -/
def ofRadices (radices : List Nat) : Odometer where
  radices := radices
  current := if 0 ∈ radices then none else some (List.replicate radices.length 0)

/-- Turn the first digit that has room and reset those before it.  There is no
successor when no digit has room. -/
def successor : List Nat → List Nat → Option (List Nat)
  | radix :: radices, digit :: digits =>
      if digit + 1 < radix then some ((digit + 1) :: digits)
      else (successor radices digits).map (0 :: ·)
  | _, _ => none

/-- The vector shown next, with the odometer after showing it. -/
def next? (odometer : Odometer) : Option (List Nat × Odometer) :=
  odometer.current.map fun digits =>
    (digits, { odometer with current := successor odometer.radices digits })

/-- The number of vectors there are in all, shown or not. -/
def combinations (odometer : Odometer) : Nat :=
  odometer.radices.foldr (· * ·) 1

/-- The same number as it is computed in words of 64 bits, from the first radix on.  There is
none if a product on the way does not fit. -/
def combinationsInWords? (odometer : Odometer) : Option Nat :=
  odometer.radices.foldlM
    (fun product radix => if product * radix < UInt64.size then some (product * radix) else none) 1

/-- The number of vectors after a given one.  A digit past its radix counts as
one that has no room. -/
def beyond : List Nat → List Nat → Nat
  | radix :: radices, digit :: digits =>
      (radix - 1 - digit) + max radix 1 * beyond radices digits
  | _, _ => 0

/-- The number of vectors still to be shown. -/
def remaining (odometer : Odometer) : Nat :=
  match odometer.current with
  | none => 0
  | some digits => beyond odometer.radices digits + 1

theorem beyond_successor_lt {radices digits later : List Nat}
    (following : successor radices digits = some later) :
    beyond radices later < beyond radices digits := by
  induction radices generalizing digits later with
  | nil => simp [successor] at following
  | cons radix radices ih =>
      cases digits with
      | nil => simp [successor] at following
      | cons digit digits =>
          rw [successor] at following
          split at following
          · rename_i room
            cases following
            simp only [beyond]
            omega
          · rcases Option.map_eq_some_iff.mp following with ⟨tail, turned, rfl⟩
            have less := ih turned
            have scaled : max radix 1 * (beyond radices tail + 1) ≤
                max radix 1 * beyond radices digits :=
              Nat.mul_le_mul_left _ less
            simp only [beyond, Nat.mul_add, Nat.mul_one] at scaled ⊢
            omega

/-- Showing a vector leaves fewer to be shown. -/
theorem remaining_next?_lt {odometer rest : Odometer} {digits : List Nat}
    (shown : odometer.next? = some (digits, rest)) :
    rest.remaining < odometer.remaining := by
  rcases odometer with ⟨radices, current⟩
  cases current with
  | none => simp [next?] at shown
  | some vector =>
      simp only [next?, Option.map_some, Option.some.injEq, Prod.mk.injEq] at shown
      rcases shown with ⟨rfl, rfl⟩
      simp only [remaining]
      split
      · omega
      · rename_i later turned
        have less := beyond_successor_lt turned
        omega

/-- Pass over a number of vectors, or all that are left if there are fewer. -/
def drop : Nat → Odometer → Odometer
  | 0, odometer => odometer
  | count + 1, odometer =>
      match odometer.next? with
      | none => odometer
      | some (_, rest) => rest.drop count

/-- Pass over a number of vectors and show the one after them, if there is one, with the
odometer that remains. -/
def nth (count : Nat) (odometer : Odometer) : Option (List Nat) × Odometer :=
  match (odometer.drop count).next? with
  | none => (none, odometer.drop count)
  | some (digits, rest) => (some digits, rest)

/-- The vectors still to be shown, in order. -/
def toList (odometer : Odometer) : List (List Nat) :=
  match _ : odometer.next? with
  | none => []
  | some (digits, rest) => digits :: rest.toList
termination_by odometer.remaining
decreasing_by exact remaining_next?_lt ‹_›

end Odometer

end ProgramSearch
