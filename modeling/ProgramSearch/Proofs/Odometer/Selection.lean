import Mathlib.Algebra.BigOperators.Group.List.Basic
import Mathlib.Data.List.Forall2
import ProgramSearch.Proofs.Odometer.Order

namespace ProgramSearch

/-!
# Rows by digits and rows of the product

An odometer over the lengths of some lists names the rows of their product.  Its digits select
one element from each list, and the rows selected are those of the product in the same order,
each as often.  The proof follows the lists: the rows of the later lists are selected first, and
for each of them the digits of the first list select all of its elements in turn.
-/

universe u

variable {α : Type u}

/-- The digits below the length of a list select its elements in front of a row that the later
digits select. -/
theorem map_selection?_range {choices : List α} {later : List (List α)} {digits : List Nat}
    {row : List α} (selected : selection? later digits = some row) :
    (List.range choices.length).map
        (fun digit => selection? (choices :: later) (digit :: digits)) =
      choices.map fun choice => some (choice :: row) := by
  apply List.ext_getElem
  · rw [List.length_map, List.length_range, List.length_map]
  · intro digit _ within
    rw [List.length_map] at within
    simp [selection?, selected, List.getElem?_eq_getElem within]

/-- The product of the digit ranges selects the product. -/
theorem map_selection?_cartesianProduct (lists : List (List α)) :
    (cartesianProduct (lists.map fun choices => List.range choices.length)).map
        (selection? lists) =
      (cartesianProduct lists).map some := by
  induction lists with
  | nil => rfl
  | cons choices later ih =>
      -- Each vector of the later digits selects some row, since `ih` says so of all of them.
      have each : ∀ digits ∈ cartesianProduct (later.map fun choices => List.range choices.length),
          ((List.range choices.length).map (· :: digits)).map (selection? (choices :: later)) =
            match selection? later digits with
            | none => []
            | some row => choices.map fun choice => some (choice :: row) := by
        intro digits member
        have among : selection? later digits ∈ (cartesianProduct later).map some := by
          rw [← ih]
          exact List.mem_map_of_mem member
        rcases List.mem_map.mp among with ⟨row, _, selected⟩
        rw [List.map_map, ← selected]
        exact map_selection?_range selected.symm
      calc (cartesianProduct ((choices :: later).map fun choices =>
              List.range choices.length)).map (selection? (choices :: later))
          = (cartesianProduct (later.map fun choices => List.range choices.length)).flatMap
              fun digits =>
                match selection? later digits with
                | none => []
                | some row => choices.map fun choice => some (choice :: row) := by
            rw [List.map_cons, cartesianProduct, List.map_flatMap]
            exact List.flatMap_congr each
        _ = ((cartesianProduct later).map some).flatMap fun selected =>
              match selected with
              | none => []
              | some row => choices.map fun choice => some (choice :: row) := by
            rw [← ih, List.flatMap_map]
        _ = (cartesianProduct (choices :: later)).map some := by
            rw [cartesianProduct, List.flatMap_map, List.map_flatMap]
            simp only [List.map_map]
            rfl

/-- Every row of the product of some digit ranges is below their bounds, place by place. -/
theorem forall₂_lt_of_mem_cartesianProduct {radices digits : List Nat}
    (member : digits ∈ cartesianProduct (radices.map List.range)) :
    List.Forall₂ (· < ·) digits radices := by
  induction radices generalizing digits with
  | nil =>
      rw [List.map_nil, cartesianProduct, List.mem_singleton] at member
      subst member
      exact .nil
  | cons radix radices ih =>
      cases digits with
      | nil => cases length_of_mem_cartesianProduct member
      | cons digit digits =>
          rw [List.map_cons, mem_cartesianProduct_cons, List.mem_range] at member
          exact .cons member.1 (ih member.2)

theorem length_cartesianProduct (lists : List (List α)) :
    (cartesianProduct lists).length = (lists.map List.length).prod := by
  induction lists with
  | nil => rfl
  | cons choices later ih =>
      simp only [cartesianProduct, List.length_flatMap, List.length_map, List.map_const',
        List.sum_replicate_nat, List.map_cons, List.prod_cons, ih]
      exact Nat.mul_comm _ _

namespace Odometer

/-- The vector shown after some others have been passed over is the one of that number. -/
theorem next?_drop (count : Nat) (odometer : Odometer) :
    (odometer.drop count).next?.map Prod.fst = odometer.toList[count]? := by
  induction count generalizing odometer with
  | zero =>
      rcases odometer with ⟨radices, current⟩
      cases current with
      | none =>
          rw [toList_none]
          rfl
      | some digits =>
          rw [toList_some]
          rfl
  | succ count ih =>
      rcases odometer with ⟨radices, current⟩
      cases current with
      | none =>
          rw [toList_none]
          rfl
      | some digits =>
          rw [toList_some, List.getElem?_cons_succ]
          exact ih _

/-- The digit vectors that an odometer over the lengths of some lists shows select the rows of
the product of the lists, in the same order and number.  Every digit shown is below its
radix. -/
theorem selects_product (lists : List (List α)) :
    (ofRadices (lists.map List.length)).toList.map (selection? lists) =
        (cartesianProduct lists).map some ∧
      ∀ digits ∈ (ofRadices (lists.map List.length)).toList,
        List.Forall₂ (· < ·) digits (lists.map List.length) := by
  rw [toList_ofRadices]
  constructor
  · rw [List.map_map]
    exact map_selection?_cartesianProduct lists
  · intro digits member
    exact forall₂_lt_of_mem_cartesianProduct member

/-- Two lists give their six rows, the first list turning faster, and an empty list among them
gives none. -/
example : (ofRadices [3, 2]).toList.filterMap (selection? [['a', 'b', 'c'], ['x', 'y']]) =
      [['a', 'x'], ['b', 'x'], ['c', 'x'], ['a', 'y'], ['b', 'y'], ['c', 'y']] ∧
    (ofRadices [2, 0]).toList = [] := by
  rw [toList_ofRadices, toList_ofRadices]
  decide

end Odometer
end ProgramSearch
