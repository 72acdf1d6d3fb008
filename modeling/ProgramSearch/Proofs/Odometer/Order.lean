import ProgramSearch.Odometer
import ProgramSearch.Product

namespace ProgramSearch
namespace Odometer

/-!
# The order of the digit vectors

An odometer shows the rows of the product of its digit ranges, in the order of the
product.  The first digit runs through what is left of its range, and from then on
through its whole range for each further vector of the later digits.
-/

theorem toList_none (radices : List Nat) :
    (Odometer.mk radices none).toList = [] := by
  rw [toList]
  rfl

theorem toList_some (radices digits : List Nat) :
    (Odometer.mk radices (some digits)).toList =
      digits :: (Odometer.mk radices (successor radices digits)).toList := by
  rw [toList]
  rfl

/-- What is left to show when the first digit has room.  The later digits are turned
only after the first one has reached the end of its range. -/
theorem toList_cons {radix digit : Nat} (radices digits : List Nat) (room : digit < radix) :
    (Odometer.mk (radix :: radices) (some (digit :: digits))).toList =
      (List.range' digit (radix - digit)).map (· :: digits) ++
        (Odometer.mk radices (successor radices digits)).toList.flatMap fun later =>
          (List.range radix).map (· :: later) := by
  induction measure : beyond (radix :: radices) (digit :: digits)
    using Nat.strongRecOn generalizing digit digits with
  | _ count ih =>
      subst measure
      rw [toList_some]
      have split : radix - digit = (radix - (digit + 1)) + 1 := by omega
      rw [split, List.range'_succ, List.map_cons, List.cons_append]
      apply congrArg (List.cons _)
      by_cases further : digit + 1 < radix
      · have turned : successor (radix :: radices) (digit :: digits) =
            some ((digit + 1) :: digits) := by
          rw [successor, if_pos further]
        rw [turned]
        exact ih _ (beyond_successor_lt turned) digits further rfl
      · have full : radix - (digit + 1) = 0 := by omega
        rw [successor, if_neg further, full]
        cases turned : successor radices digits with
        | none => simp [toList_none]
        | some later =>
            -- The first digit starts again, in front of the next vector of the others.
            have carried : successor (radix :: radices) (digit :: digits) =
                some (0 :: later) := by
              rw [successor, if_neg further, turned, Option.map_some]
            have positive : 0 < radix := by omega
            have restarted := ih _ (beyond_successor_lt carried) later positive rfl
            rw [Option.map_some, restarted, toList_some, List.flatMap_cons,
              ← List.range_eq_range']
            rfl

/-- An odometer shows the product of its digit ranges. -/
theorem toList_ofRadices (radices : List Nat) :
    (ofRadices radices).toList = cartesianProduct (radices.map List.range) := by
  induction radices with
  | nil => simp [ofRadices, toList_some, successor, toList_none, cartesianProduct]
  | cons radix radices ih =>
      rw [List.map_cons, cartesianProduct, ← ih]
      by_cases stuck : 0 ∈ radices
      · simp [ofRadices, stuck, toList_none]
      · by_cases empty : 0 = radix
        · subst empty
          simp [ofRadices, toList_none]
        · have positive : 0 < radix := by omega
          have neither : 0 ∉ radix :: radices := by
            rw [List.mem_cons, not_or]
            exact ⟨empty, stuck⟩
          rw [ofRadices, ofRadices, if_neg neither, if_neg stuck, List.length_cons,
            List.replicate_succ, toList_cons _ _ positive, toList_some, List.flatMap_cons,
            Nat.sub_zero, ← List.range_eq_range']

end Odometer
end ProgramSearch
