namespace ProgramSearch

/-!
# One element from every list

`cartesianProduct` lists every way to choose one element from each of several
lists.  The choice made in the first list turns fastest, as the units of a
counter do.  `Odometer` produces the positions of the same choices one at a
time.
-/

/-- Every choice of one element per list.  No lists leave one choice, the empty
one; an empty list among them leaves none. -/
def cartesianProduct : List (List α) → List (List α)
  | [] => [[]]
  | choices :: later =>
      (cartesianProduct later).flatMap fun tail => choices.map (· :: tail)

/-- The row that takes from each list the element its digit names, if there is one digit per
list and each of them names an element. -/
def selection? : List (List α) → List Nat → Option (List α)
  | [], [] => some []
  | choices :: later, digit :: digits =>
      choices[digit]?.bind fun choice => (selection? later digits).map (choice :: ·)
  | _, _ => none

/-- A row of the product takes its entry at each place from the list there. -/
theorem mem_cartesianProduct_cons (head : α) (tail : List α)
    (choices : List α) (later : List (List α)) :
    head :: tail ∈ cartesianProduct (choices :: later) ↔
      head ∈ choices ∧ tail ∈ cartesianProduct later := by
  simp only [cartesianProduct, List.mem_flatMap, List.mem_map, List.cons.injEq]
  constructor
  · rintro ⟨row, member, choice, chosen, rfl, rfl⟩
    exact ⟨chosen, member⟩
  · rintro ⟨chosen, member⟩
    exact ⟨tail, member, head, chosen, rfl, rfl⟩

/-- A row has one entry per list. -/
theorem length_of_mem_cartesianProduct {lists : List (List α)} {row : List α}
    (member : row ∈ cartesianProduct lists) : row.length = lists.length := by
  induction lists generalizing row with
  | nil => simp_all [cartesianProduct]
  | cons choices later ih =>
      simp only [cartesianProduct, List.mem_flatMap, List.mem_map] at member
      rcases member with ⟨tail, within, choice, _, rfl⟩
      rw [List.length_cons, ih within, List.length_cons]

/-- The rows of two groups of lists: those of the first group turn faster. -/
theorem cartesianProduct_append (first second : List (List α)) :
    cartesianProduct (first ++ second) =
      (cartesianProduct second).flatMap fun later =>
        (cartesianProduct first).map (· ++ later) := by
  induction first with
  | nil => simp [cartesianProduct]
  | cons choices first ih =>
      simp only [List.cons_append, cartesianProduct, ih, List.flatMap_assoc,
        List.flatMap_map, List.map_flatMap, List.map_map]
      rfl

end ProgramSearch
