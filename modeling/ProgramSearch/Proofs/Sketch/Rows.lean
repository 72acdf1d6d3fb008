import Mathlib.Algebra.BigOperators.Ring.List
import Mathlib.Algebra.GroupWithZero.Nat
import ProgramSearch.Proofs.Odometer.Selection
import ProgramSearch.Proofs.Sketch.Program
import ProgramSearch.Proofs.Tree.LeafPaths
import ProgramSearch.Proofs.Tree.Relabelling
import ProgramSearch.Sketch.Row

namespace ProgramSearch

/-!
# A program for each row

Paths, literals and digits of a filling are three lists computed at different times.  The holes
are the leaves for which literals are offered, in order; a row of digits selects a row of
literals; and filling one hole leaves the paths of the others and what they lead to.  Each
call for a program therefore answers with the next row of the product put into the sketch, and
no digit and no path ever goes astray.
-/

universe u

variable {V : Type u}

/-- The leaves for which a filler offers literals, left to right. -/
def Tree.offeredLeaves (filler : Filler V) (sample : Sample V) (tree : Tree V) :
    List (Tree V) :=
  tree.leaves.filter fun leaf => !(filler leaf.symbol sample).isEmpty

/-! ## Holes are leaves -/

section Holes

variable (filler : Filler V) (sample : Sample V)

/-- The holes are the leaves with offers, in order, each with its path and its offers. -/
theorem forall₂_holes (sketch : Tree V) :
    List.Forall₂
      (fun hole leaf =>
        sketch.descendant? hole.path = some leaf ∧ hole.choices = filler leaf.symbol sample)
      (holes filler sample sketch) (sketch.offeredLeaves filler sample) := by
  have each := sketch.forall₂_leafPaths
  rw [holes, Tree.offeredLeaves]
  generalize sketch.leafPaths = paths at each ⊢
  generalize sketch.leaves = leaves at each ⊢
  induction each with
  | nil => exact .nil
  | @cons path leaf paths leaves leads others ih =>
      cases offered : (filler leaf.symbol sample).isEmpty with
      | true => simpa [holeAt?, leads, offered] using ih
      | false =>
          have hole : holeAt? filler sample sketch path =
              some ⟨path, filler leaf.symbol sample⟩ := by
            simp [holeAt?, leads, offered]
          rw [List.filterMap_cons_some hole, List.filter_cons_of_pos (by simp [offered])]
          exact .cons ⟨leads, rfl⟩ ih

theorem map_choices_holes (sketch : Tree V) :
    (holes filler sample sketch).map Hole.choices =
      (sketch.offeredLeaves filler sample).map fun leaf => filler leaf.symbol sample := by
  rw [← List.forall₂_eq_eq_eq, List.forall₂_map_left_iff, List.forall₂_map_right_iff]
  exact (forall₂_holes filler sample sketch).imp fun _ _ both => both.2

variable {filler sample} in
theorem path_of_holeAt? {sketch : Tree V} {path : List Nat} {hole : Hole V}
    (found : holeAt? filler sample sketch path = some hole) : hole.path = path := by
  unfold holeAt? at found
  split at found
  · cases found
  · dsimp only at found
    split at found <;> cases found
    rfl

theorem nodup_path_holes (sketch : Tree V) :
    ((holes filler sample sketch).map Hole.path).Nodup := by
  apply List.Nodup.sublist _ sketch.nodup_leafPaths
  rw [holes]
  induction sketch.leafPaths with
  | nil => exact List.nil_sublist _
  | cons path paths ih =>
      cases found : holeAt? filler sample sketch path with
      | none =>
          rw [List.filterMap_cons_none found]
          exact ih.cons path
      | some hole =>
          rw [List.filterMap_cons_some found, List.map_cons, path_of_holeAt? found]
          exact ih.cons_cons path

end Holes

/-! ## Filling in turn -/

/-- A hole of a program whose path leads to a leaf. -/
def Hole.Open (program : Tree V) (hole : Hole V) : Prop :=
  ∃ leaf, program.descendant? hole.path = some leaf ∧ leaf.children = []

section Fill

variable {program filled : Tree V} {hole : Hole V} {value : V}

/-- The literal put into a hole is found there. -/
theorem literal_filled (isOpen : hole.Open program)
    (reached : program.updateAt? (Tree.withLiteral value) hole.path = some filled) :
    (filled.descendant? hole.path).map Tree.literal = some (some value) := by
  rcases isOpen with ⟨⟨symbol, literal, children⟩, leads, rfl⟩
  rw [Tree.descendant?_updateAt?_self reached, leads]
  rfl

/-- Filling a hole leaves every other hole open. -/
theorem Hole.Open.afterFill {other : Hole V} (isOpen : other.Open program)
    (reached : program.updateAt? (Tree.withLiteral value) hole.path = some filled) :
    other.Open filled := by
  rcases isOpen with ⟨leaf, leads, childless⟩
  have same := (Tree.descendant?_updateAt?_of_keepsFrame (Tree.keepsFrame_withLiteral value)
    reached other.path).1
  rw [leads, Option.map_some, Option.map_eq_some_iff] at same
  rcases same with ⟨found, leads', frame⟩
  refine ⟨found, leads', ?_⟩
  have count : found.children.length = leaf.children.length := congrArg Prod.snd frame
  rw [childless] at count
  exact List.length_eq_zero_iff.mp count

end Fill

/-- Holes at different paths are filled in turn, each with the literal that its digit names, and
the outcome is the program with the row that the digits select. -/
theorem filledInTurn_of_selection? {holes : List (Hole V)} {digits : List Nat} {row : List V}
    {program : Tree V} (distinct : (holes.map Hole.path).Nodup)
    (opened : ∀ hole ∈ holes, hole.Open program)
    (selected : selection? (holes.map Hole.choices) digits = some row) :
    FilledInTurn holes digits program (fillHoles holes digits program) ∧
      FilledWith program holes row (fillHoles holes digits program) := by
  induction holes generalizing digits row program with
  | nil =>
      cases digits with
      | cons digit digits => cases selected
      | nil =>
          cases selected
          exact ⟨.done program, fun _ => rfl, rfl, fun _ _ => rfl⟩
  | cons hole holes ih =>
      cases digits with
      | nil => cases selected
      | cons digit digits =>
          rw [List.map_cons, selection?, Option.bind_eq_some_iff] at selected
          rcases selected with ⟨value, chosen, rest⟩
          rcases Option.map_eq_some_iff.mp rest with ⟨row, selected, rfl⟩
          rw [List.map_cons, List.nodup_cons] at distinct
          have isOpen := opened hole List.mem_cons_self
          rcases isOpen with ⟨leaf, leads, childless⟩
          rcases Tree.exists_updateAt? (Tree.withLiteral value) leads with ⟨filled, reached⟩
          have filling : hole.fill digit program = filled := by
            rw [Hole.fill, chosen]
            simp only [reached, Option.getD_some]
          have changed := Tree.descendant?_updateAt?_of_keepsFrame
            (Tree.keepsFrame_withLiteral value) reached
          have others : FilledInTurn holes digits filled (fillHoles holes digits filled) ∧
              FilledWith filled holes row (fillHoles holes digits filled) := by
            apply ih distinct.2 _ selected
            intro other member
            exact (opened other (List.mem_cons_of_mem _ member)).afterFill reached
          rcases others with ⟨inTurn, shape, placed, kept⟩
          rw [fillHoles, filling]
          refine ⟨.fill chosen reached inTurn, ?_, ?_, ?_⟩
          · intro path
            exact (shape path).trans (changed path).1
          · rw [List.map_cons, List.map_cons, placed, kept _ distinct.1,
              literal_filled ⟨leaf, leads, childless⟩ reached]
          · intro path elsewhere
            rw [List.map_cons, List.mem_cons, not_or] at elsewhere
            rw [kept path elsewhere.2]
            exact (changed path).2 elsewhere.1

/-- There is only one program with the literals of a row in the holes. -/
theorem FilledWith.eq {sketch program other : Tree V} {holes : List (Hole V)} {row : List V}
    (filled : FilledWith sketch holes row program) (filled' : FilledWith sketch holes row other) :
    program = other := by
  apply Tree.eq_of_descendant?
  · intro path
    rw [filled.shape, filled'.shape]
  · intro path
    by_cases here : path ∈ holes.map Hole.path
    · rcases List.mem_map.mp here with ⟨hole, member, rfl⟩
      exact List.map_eq_map_iff.mp (filled.placed.trans filled'.placed.symm) hole member
    · rw [filled.kept path here, filled'.kept path here]

/-! ## The calls of a filling -/

/-- Calls turn the odometer and leave the sketch and its holes. -/
theorem Filling.after_eq_drop (count : Nat) (filling : Filling V) :
    filling.after count = { filling with odometer := filling.odometer.drop count } := by
  induction count generalizing filling with
  | zero => rfl
  | succ count ih =>
      rcases filling with ⟨sketch, holes, odometer⟩
      cases turned : odometer.next? with
      | none => simp only [after, next?, turned, Odometer.drop]
      | some shown => simp only [after, next?, turned, Odometer.drop, ih]

/-- A call puts the digits that the odometer shows into the sketch. -/
theorem Filling.fst_next? (filling : Filling V) :
    filling.next?.map Prod.fst =
      (filling.odometer.next?.map Prod.fst).map
        fun digits => fillHoles filling.holes digits filling.sketch := by
  rw [Filling.next?]
  cases filling.odometer.next? <;> rfl

section OfSketch

variable (filler : Filler V) (sample : Sample V) (sketch : Tree V)

theorem radices_ofSketch :
    ((holes filler sample sketch).map fun hole => hole.choices.length) =
      ((sketch.offeredLeaves filler sample).map fun leaf => filler leaf.symbol sample).map
        List.length := by
  rw [← map_choices_holes, List.map_map]
  rfl

/-- Every vector that the odometer of a filling shows selects a row, and the rows come in the
order of the product. -/
theorem forall₂_selection?_ofSketch :
    let lists := (sketch.offeredLeaves filler sample).map fun leaf => filler leaf.symbol sample
    List.Forall₂
      (fun row digits =>
        selection? ((holes filler sample sketch).map Hole.choices) digits = some row)
      (cartesianProduct lists) (Filling.ofSketch filler sample sketch).odometer.toList := by
  intro lists
  have rows : (Filling.ofSketch filler sample sketch).odometer.toList.map (selection? lists) =
      (cartesianProduct lists).map some := by
    rw [Filling.ofSketch, radices_ofSketch, Odometer.toList_ofRadices, List.map_map]
    exact map_selection?_cartesianProduct lists
  rw [← List.forall₂_eq_eq_eq, List.forall₂_map_left_iff, List.forall₂_map_right_iff] at rows
  rw [map_choices_holes]
  exact rows.flip

theorem prod_offers_pos :
    0 < (((sketch.offeredLeaves filler sample).map fun leaf => filler leaf.symbol sample).map
      List.length).prod := by
  apply Nat.pos_of_ne_zero
  intro none
  rcases List.mem_map.mp (List.prod_eq_zero_iff.mp none) with ⟨offers, among, empty⟩
  rcases List.mem_map.mp among with ⟨leaf, member, rfl⟩
  have some := List.of_mem_filter member
  rw [List.length_eq_zero_iff.mp empty] at some
  cases some

/-- What a filling makes of the digits that select a row. -/
theorem filledWith_of_selection? {row : List V} {digits : List Nat}
    (selected : selection? ((holes filler sample sketch).map Hole.choices) digits = some row) :
    FilledInTurn (holes filler sample sketch) digits sketch
        (fillHoles (holes filler sample sketch) digits sketch) ∧
      FilledWith sketch (holes filler sample sketch) row
        (fillHoles (holes filler sample sketch) digits sketch) := by
  apply filledInTurn_of_selection? (nodup_path_holes filler sample sketch) _ selected
  intro hole member
  rcases Tree.exists_of_mem_forall₂ (forall₂_holes filler sample sketch).flip member with
    ⟨leaf, among, leads, _⟩
  exact ⟨leaf, leads, Tree.children_of_mem_leaves (List.mem_of_mem_filter among)⟩

end OfSketch

/-- The programs of a filling are the rows of the product of the offers, each put into the
sketch.  The holes are the leaves with offers; there is one program for each row, in the order
of the rows, and none after them, so that there are as many as the product of the numbers of
offers, at least one, and the sketch alone if it has no holes.  No call alters the sketch, and
the digits of every call name literals on offer and meet their holes. -/
theorem programs_by_rows (filler : Filler V) (sample : Sample V) (sketch : Tree V) :
    let filling := Filling.ofSketch filler sample sketch
    let offered := sketch.offeredLeaves filler sample
    let lists := offered.map fun leaf => filler leaf.symbol sample
    List.Forall₂
        (fun hole leaf =>
          sketch.descendant? hole.path = some leaf ∧ hole.choices = filler leaf.symbol sample)
        filling.holes offered ∧
      (∃ programs : List (Tree V),
        (∀ count, (filling.after count).next?.map Prod.fst = programs[count]?) ∧
          List.Forall₂
            (fun row program =>
              ∀ tree, FilledWith sketch filling.holes row tree ↔ tree = program)
            (cartesianProduct lists) programs ∧
          programs.length = (lists.map List.length).prod ∧ 0 < programs.length ∧
          (offered = [] → programs = [sketch])) ∧
      ∀ count, (filling.after count).sketch = sketch ∧
        (filling.after count).holes = filling.holes ∧
        ∀ digits rest, (filling.after count).odometer.next? = some (digits, rest) →
          ∃ program, FilledInTurn filling.holes digits sketch program ∧
            (filling.after count).next?.map Prod.fst = some program := by
  intro filling offered lists
  have each := forall₂_selection?_ofSketch filler sample sketch
  have calls : ∀ count, (filling.after count).next?.map Prod.fst =
      (filling.odometer.toList.map fun digits =>
        fillHoles filling.holes digits sketch)[count]? := by
    intro count
    rw [Filling.fst_next?, Filling.after_eq_drop, List.getElem?_map, ← Odometer.next?_drop]
    rfl
  have rows : List.Forall₂
      (fun row program => ∀ tree, FilledWith sketch filling.holes row tree ↔ tree = program)
      (cartesianProduct lists)
      (filling.odometer.toList.map fun digits => fillHoles filling.holes digits sketch) := by
    rw [List.forall₂_map_right_iff]
    apply each.imp
    intro row digits selected tree
    have filled := (filledWith_of_selection? filler sample sketch selected).2
    exact ⟨fun other => other.eq filled, fun same => same ▸ filled⟩
  have count : (filling.odometer.toList.map fun digits =>
      fillHoles filling.holes digits sketch).length = (lists.map List.length).prod := by
    rw [← rows.length_eq, length_cartesianProduct]
  refine ⟨forall₂_holes filler sample sketch, ⟨_, calls, rows, count, ?_, ?_⟩, ?_⟩
  · rw [count]
    exact prod_offers_pos filler sample sketch
  · intro none
    have bare := forall₂_holes filler sample sketch
    rw [show sketch.offeredLeaves filler sample = [] from none,
      List.forall₂_nil_right_iff] at bare
    change ((Odometer.ofRadices ((holes filler sample sketch).map _)).toList.map fun digits =>
      fillHoles (holes filler sample sketch) digits sketch) = [sketch]
    rw [bare, List.map_nil, Odometer.toList_ofRadices]
    rfl
  · intro count
    have state := Filling.after_eq_drop count filling
    rw [state]
    refine ⟨rfl, rfl, ?_⟩
    intro digits rest shown
    have number : filling.odometer.toList[count]? = some digits := by
      rw [← Odometer.next?_drop, shown, Option.map_some]
    rcases Tree.exists_of_mem_forall₂ each (List.mem_of_getElem? number) with
      ⟨row, _, selected⟩
    refine ⟨_, (filledWith_of_selection? filler sample sketch selected).1, ?_⟩
    rw [← state, calls, List.getElem?_map, number]
    rfl

end ProgramSearch
