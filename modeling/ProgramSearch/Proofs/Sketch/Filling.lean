import Mathlib.Data.List.Basic
import ProgramSearch.Proofs.Odometer.Order
import ProgramSearch.Proofs.Tree.Children
import ProgramSearch.Sketch.Completion
import ProgramSearch.Sketch.Filling

namespace ProgramSearch

/-!
# Filling by paths and digits is completing leaf by leaf

A filling puts literals into a copy of its sketch at the paths of the holes, as the
digits of an odometer select them.  The programs it hands out are the completions of
the sketch, in the same order and number.  The proof follows the tree: the holes of a
node are those of its children in turn, and filling those of one child changes that
child only.
-/

universe u

variable {V : Type u}

/-- The hole seen from the parent of the tree it belongs to. -/
def Hole.below (index : Nat) (hole : Hole V) : Hole V :=
  ⟨index :: hole.path, hole.choices⟩

/-- The holes of a row of trees whose first one has the given number. -/
def forestHoles (filler : Filler V) (sample : Sample V) : Nat → List (Tree V) → List (Hole V)
  | _, [] => []
  | index, tree :: trees =>
      (holes filler sample tree).map (Hole.below index)
        ++ forestHoles filler sample (index + 1) trees

/-- The digit vectors of some holes, the first hole turning fastest. -/
def digitRows (holes : List (Hole V)) : List (List Nat) :=
  cartesianProduct (holes.map fun hole => List.range hole.choices.length)

/-- A program for each digit vector of the holes. -/
def fillings (holes : List (Hole V)) (sketch : Tree V) : List (Tree V) :=
  (digitRows holes).map fun digits => fillHoles holes digits sketch

theorem Filling.toList_ofSketch (filler : Filler V) (sample : Sample V) (sketch : Tree V) :
    (Filling.ofSketch filler sample sketch).toList =
      fillings (ProgramSearch.holes filler sample sketch) sketch := by
  rw [Filling.toList, Filling.ofSketch, Odometer.toList_ofRadices, List.map_map, fillings,
    digitRows]
  rfl

theorem digitRows_below (index : Nat) (holes : List (Hole V)) :
    digitRows (holes.map (Hole.below index)) = digitRows holes := by
  rw [digitRows, List.map_map]
  rfl

theorem length_of_mem_digitRows {holes : List (Hole V)} {digits : List Nat}
    (member : digits ∈ digitRows holes) : digits.length = holes.length := by
  rw [length_of_mem_cartesianProduct member, List.length_map]

/-- Holes are filled one after another. -/
theorem fillHoles_append {first second : List (Hole V)} {early late : List Nat}
    (aligned : early.length = first.length) (program : Tree V) :
    fillHoles (first ++ second) (early ++ late) program =
      fillHoles second late (fillHoles first early program) := by
  induction first generalizing early program with
  | nil =>
      rw [List.length_eq_zero_iff.mp aligned]
      simp [fillHoles]
  | cons hole first ih =>
      cases early with
      | nil => cases aligned
      | cons digit early => exact ih (Nat.succ.inj aligned) _

/-- Of two groups of holes the first turns faster. -/
theorem fillings_append (first second : List (Hole V)) (sketch : Tree V) :
    fillings (first ++ second) sketch =
      (digitRows second).flatMap fun late =>
        (digitRows first).map fun early =>
          fillHoles second late (fillHoles first early sketch) := by
  rw [fillings, digitRows, List.map_append, cartesianProduct_append, List.map_flatMap]
  apply List.flatMap_congr
  intro late _
  rw [List.map_map]
  apply List.map_congr_left
  intro early member
  exact fillHoles_append (length_of_mem_digitRows member) sketch

/-- A single hole is filled with each of its literals in turn. -/
theorem fillings_singleton (hole : Hole V) (sketch : Tree V) :
    fillings [hole] sketch =
      hole.choices.map fun value =>
        (sketch.updateAt? (Tree.withLiteral value) hole.path).getD sketch := by
  have rows : digitRows [hole] = (List.range hole.choices.length).map fun digit => [digit] := by
    simp [digitRows, cartesianProduct]
  rw [fillings, rows, List.map_map]
  apply List.ext_getElem
  · simp
  · intro digit _ within
    rw [List.length_map] at within
    simp [fillHoles, Hole.fill, List.getElem?_eq_getElem within]

section Child

variable (symbol : Symbol) (literal : Option V)
variable (before : List (Tree V)) (child : Tree V) (behind : List (Tree V))

theorem fill_below (hole : Hole V) (digit : Nat) :
    (hole.below before.length).fill digit (.node symbol literal (before ++ child :: behind)) =
      .node symbol literal (before ++ hole.fill digit child :: behind) := by
  simp only [Hole.fill, Hole.below]
  cases hole.choices[digit]? with
  | none => rfl
  | some value =>
      simp only [Tree.updateAt?_child]
      cases Tree.updateAt? (Tree.withLiteral value) hole.path child <;> rfl

/-- Filling the holes of one child leaves its siblings as they are. -/
theorem fillHoles_below (holes : List (Hole V)) (digits : List Nat) :
    fillHoles (holes.map (Hole.below before.length)) digits
        (.node symbol literal (before ++ child :: behind)) =
      .node symbol literal (before ++ fillHoles holes digits child :: behind) := by
  induction holes generalizing digits child with
  | nil => cases digits <;> rfl
  | cons hole holes ih =>
      cases digits with
      | nil => rfl
      | cons digit digits =>
          rw [List.map_cons, fillHoles, fill_below, ih, fillHoles]

theorem holeAt?_child (filler : Filler V) (sample : Sample V) (path : List Nat) :
    holeAt? filler sample (.node symbol literal (before ++ child :: behind))
        (before.length :: path) =
      (holeAt? filler sample child path).map (Hole.below before.length) := by
  unfold holeAt?
  rw [Tree.descendant?_child]
  cases Tree.descendant? path child with
  | none => rfl
  | some leaf => by_cases none : (filler leaf.symbol sample).isEmpty <;> simp [none, Hole.below]

end Child

/-- The holes found by path below a node are those of its children. -/
theorem filterMap_holeAt?_forest (filler : Filler V) (sample : Sample V) (symbol : Symbol)
    (literal : Option V) (before trees : List (Tree V)) :
    (Tree.forestLeafPathsWhere (fun _ => true) before.length trees).filterMap
        (holeAt? filler sample (.node symbol literal (before ++ trees))) =
      forestHoles filler sample before.length trees := by
  induction trees generalizing before with
  | nil => rfl
  | cons tree trees ih =>
      have others := ih (before ++ [tree])
      simp only [List.length_append, List.length_singleton, List.append_assoc,
        List.singleton_append] at others
      rw [Tree.forestLeafPathsWhere, List.filterMap_append, others, forestHoles,
        List.filterMap_map, holes, List.map_filterMap, Tree.leafPaths]
      apply congrArg (· ++ _)
      apply List.filterMap_congr
      intro path _
      exact holeAt?_child symbol literal before tree trees filler sample path

theorem holes_node_cons (filler : Filler V) (sample : Sample V) (symbol : Symbol)
    (literal : Option V) (child : Tree V) (children : List (Tree V)) :
    holes filler sample (.node symbol literal (child :: children)) =
      forestHoles filler sample 0 (child :: children) := by
  rw [holes, Tree.leafPaths, Tree.leafPathsWhere_node_cons]
  exact filterMap_holeAt?_forest filler sample symbol literal [] (child :: children)

/-- Two lists that agree under each of the faster choices agree under all of them. -/
private theorem flatMap_map_congr {X Y Z W : Type*} {left : X → Y → W} {right : Z → Y → W}
    {slow : List X} {slow' : List Z} (fast : List Y)
    (same : ∀ y ∈ fast, (slow.map fun x => left x y) = slow'.map fun z => right z y) :
    (slow.flatMap fun x => fast.map (left x)) =
      slow'.flatMap fun z => fast.map (right z) := by
  cases fast with
  | nil => simp only [List.map_nil, List.flatMap_eq_nil_iff.mpr fun _ _ => rfl]
  | cons first fast =>
      induction slow generalizing slow' with
      | nil =>
          have empty := same first List.mem_cons_self
          rw [List.map_nil, eq_comm, List.map_eq_nil_iff] at empty
          rw [empty]
          rfl
      | cons x slow ih =>
          cases slow' with
          | nil =>
              have longer := same first List.mem_cons_self
              cases longer
          | cons z slow' =>
              have heads : ∀ y ∈ first :: fast, left x y = right z y := fun y member =>
                (List.cons.inj (same y member)).1
              have tails := ih fun y member => (List.cons.inj (same y member)).2
              rw [List.flatMap_cons, List.flatMap_cons, tails, List.map_congr_left heads]

/-- Filling the holes of a row of children completes each of them. -/
private theorem fillings_forestHoles (filler : Filler V) (sample : Sample V)
    (symbol : Symbol) (literal : Option V) (trees : List (Tree V))
    (each : ∀ tree ∈ trees,
      fillings (holes filler sample tree) tree = tree.completions filler sample)
    (before : List (Tree V)) :
    fillings (forestHoles filler sample before.length trees)
        (.node symbol literal (before ++ trees)) =
      (Tree.forestCompletions filler sample trees).map fun completed =>
        .node symbol literal (before ++ completed) := by
  induction trees generalizing before with
  | nil => simp [forestHoles, fillings, digitRows, cartesianProduct, fillHoles,
      Tree.forestCompletions]
  | cons tree trees ih =>
      have first : (digitRows (holes filler sample tree)).map
          (fun digits => fillHoles (holes filler sample tree) digits tree) =
            tree.completions filler sample :=
        each tree List.mem_cons_self
      -- Whatever became of the first child, the others are completed behind it.
      have others : ∀ completed : Tree V,
          (digitRows (forestHoles filler sample (before.length + 1) trees)).map
              (fun digits => fillHoles (forestHoles filler sample (before.length + 1) trees)
                digits (.node symbol literal (before ++ completed :: trees))) =
            (Tree.forestCompletions filler sample trees).map fun later =>
              .node symbol literal (before ++ completed :: later) := by
        intro completed
        have shifted := ih (fun tree member => each tree (List.mem_cons_of_mem _ member))
          (before ++ [completed])
        simpa only [fillings, List.length_append, List.length_singleton, List.append_assoc,
          List.singleton_append] using shifted
      calc fillings (forestHoles filler sample before.length (tree :: trees))
            (.node symbol literal (before ++ tree :: trees))
          = (digitRows (forestHoles filler sample (before.length + 1) trees)).flatMap
              fun late => (tree.completions filler sample).map fun completed =>
                fillHoles (forestHoles filler sample (before.length + 1) trees) late
                  (.node symbol literal (before ++ completed :: trees)) := by
            rw [forestHoles, fillings_append, digitRows_below, ← first]
            simp only [fillHoles_below, List.map_map]
            rfl
        _ = (Tree.forestCompletions filler sample trees).flatMap
              fun later => (tree.completions filler sample).map fun completed =>
                .node symbol literal (before ++ completed :: later) :=
            flatMap_map_congr _ fun completed _ => others completed
        _ = (Tree.forestCompletions filler sample (tree :: trees)).map fun completed =>
              .node symbol literal (before ++ completed) := by
            rw [Tree.forestCompletions, List.map_flatMap]
            simp only [List.map_map]
            rfl

/-- The programs of a filling are the completions of its sketch. -/
theorem Filling.toList_ofSketch_eq_completions (filler : Filler V) (sample : Sample V)
    (sketch : Tree V) :
    (Filling.ofSketch filler sample sketch).toList = sketch.completions filler sample := by
  rw [Filling.toList_ofSketch]
  induction sketch using Tree.induction with
  | leaf symbol literal =>
      rw [ProgramSearch.holes, Tree.leafPaths, Tree.leafPathsWhere, if_pos rfl,
        Tree.completions]
      cases offered : filler symbol sample with
      | nil =>
          simp [holeAt?, Tree.descendant?, Tree.symbol, offered, fillings, digitRows,
            cartesianProduct, fillHoles]
      | cons value values =>
          simp [holeAt?, Tree.descendant?, Tree.symbol, offered, fillings_singleton,
            Tree.updateAt?, Tree.withLiteral]
  | branch symbol literal child children ih =>
      rw [holes_node_cons, Tree.completions]
      exact fillings_forestHoles filler sample symbol literal (child :: children) ih []

end ProgramSearch
