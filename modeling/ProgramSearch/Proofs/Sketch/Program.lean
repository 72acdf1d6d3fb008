import Mathlib.Data.List.Forall2
import ProgramSearch.Grammar.History
import ProgramSearch.Proofs.Grammar.Derivation
import ProgramSearch.Sketch.Completion

namespace ProgramSearch
namespace Tree

/-!
# Completing sketches gives the programs

The completions of a sketch without nonterminal leaves are programs of the grammar, and
each program is a completion of its skeleton.
-/

universe u

variable {V : Type u} {grammar : Grammar} {filler : Filler V} {sample : Sample V}

/-- A leaf is completed to itself with one of the literals offered for it, or with none
if none is offered. -/
theorem mem_completions_leaf (symbol : Symbol) (program : Tree V) :
    program ∈ (leaf symbol : Tree V).completions filler sample ↔
      ∃ literal, program = node symbol literal [] ∧
        Grammar.CarriesOffered (filler symbol sample) literal := by
  rw [leaf, completions]
  cases filler symbol sample with
  | nil =>
      rw [List.mem_singleton]
      constructor
      · intro same
        exact ⟨none, same, rfl⟩
      · rintro ⟨literal, rfl, carried⟩
        cases literal with
        | none => rfl
        | some value => cases carried
  | cons first offered =>
      rw [List.mem_map]
      constructor
      · rintro ⟨value, member, rfl⟩
        exact ⟨some value, rfl, member⟩
      · rintro ⟨literal, rfl, carried⟩
        cases literal with
        | none => cases carried
        | some value => exact ⟨value, carried, rfl⟩

/-- A row of trees is completed tree by tree. -/
theorem mem_forestCompletions (trees completed : List (Tree V)) :
    completed ∈ forestCompletions filler sample trees ↔
      List.Forall₂ (fun tree program => program ∈ tree.completions filler sample)
        trees completed := by
  induction trees generalizing completed with
  | nil => rw [forestCompletions, List.mem_singleton, List.forall₂_nil_left_iff]
  | cons tree trees ih =>
      rw [forestCompletions, List.mem_flatMap, List.forall₂_cons_left_iff]
      constructor
      · rintro ⟨later, among, member⟩
        rcases List.mem_map.mp member with ⟨program, chosen, rfl⟩
        exact ⟨program, later, chosen, (ih later).mp among, rfl⟩
      · rintro ⟨program, later, chosen, each, rfl⟩
        exact ⟨later, (ih later).mpr each, List.mem_map.mpr ⟨program, chosen, rfl⟩⟩

theorem symbol_of_mem_completions {sketch program : Tree V}
    (member : program ∈ sketch.completions filler sample) :
    program.symbol = sketch.symbol := by
  rcases sketch with ⟨symbol, literal, _ | ⟨child, children⟩⟩
  · rw [completions] at member
    split at member
    · rw [List.mem_singleton.mp member]
    · rcases List.mem_map.mp member with ⟨value, _, rfl⟩
      rfl
  · rcases List.mem_map.mp member with ⟨completed, _, rfl⟩
    rfl

theorem exists_of_mem_forall₂ {X Y : Type*} {relation : X → Y → Prop} {xs : List X}
    {ys : List Y} (each : List.Forall₂ relation xs ys) {y : Y} (member : y ∈ ys) :
    ∃ x ∈ xs, relation x y := by
  induction each with
  | nil => cases member
  | cons first _ ih =>
      rcases List.mem_cons.mp member with rfl | later
      · exact ⟨_, List.mem_cons_self, first⟩
      · rcases ih later with ⟨x, among, related⟩
        exact ⟨x, List.mem_cons_of_mem _ among, related⟩

section Row

variable {trees completed : List (Tree V)}

theorem exists_of_mem_forestCompletions
    (member : completed ∈ forestCompletions filler sample trees) {program : Tree V}
    (chosen : program ∈ completed) :
    ∃ tree ∈ trees, program ∈ tree.completions filler sample :=
  exists_of_mem_forall₂ ((mem_forestCompletions _ _).mp member) chosen

theorem map_symbol_of_mem_forestCompletions
    (member : completed ∈ forestCompletions filler sample trees) :
    completed.map Tree.symbol = trees.map Tree.symbol := by
  have each := (mem_forestCompletions _ _).mp member
  rw [eq_comm, ← List.forall₂_eq_eq_eq, List.forall₂_map_left_iff,
    List.forall₂_map_right_iff]
  apply each.imp
  intro tree program completion
  exact (symbol_of_mem_completions completion).symm

theorem ne_nil_of_mem_forestCompletions
    (member : completed ∈ forestCompletions filler sample trees) (inner : trees ≠ []) :
    completed ≠ [] := by
  have symbols := map_symbol_of_mem_forestCompletions member
  intro none
  rw [none, List.map_nil, eq_comm, List.map_eq_nil_iff] at symbols
  exact inner symbols

end Row

/-- A completion has at its leaves only symbols that its sketch has there. -/
theorem exists_hole_of_mem_completions {sketch program leaf : Tree V}
    (member : program ∈ sketch.completions filler sample) (below : leaf ∈ program.leaves) :
    ∃ hole ∈ sketch.leaves, leaf.symbol = hole.symbol := by
  induction sketch using Tree.induction generalizing program with
  | leaf symbol literal =>
      refine ⟨_, mem_leaves_leaf.mpr rfl, ?_⟩
      rw [completions] at member
      split at member
      · rw [List.mem_singleton.mp member] at below
        rw [mem_leaves_leaf.mp below]
      · rcases List.mem_map.mp member with ⟨value, _, rfl⟩
        rw [mem_leaves_leaf.mp below]
        rfl
  | branch symbol literal child children ih =>
      rcases List.mem_map.mp member with ⟨completed, among, rfl⟩
      have inner := ne_nil_of_mem_forestCompletions among (List.cons_ne_nil _ _)
      rcases (mem_leaves_node inner).mp below with ⟨program, chosen, under⟩
      rcases exists_of_mem_forestCompletions among chosen with ⟨tree, here, completion⟩
      rcases ih tree here completion under with ⟨hole, there, same⟩
      exact ⟨hole, (mem_leaves_node (List.cons_ne_nil _ _)).mpr ⟨tree, here, there⟩, same⟩

/-- A derived tree whose leaves carry what is offered for them, from whatever root. -/
structure Filled (grammar : Grammar) (filler : Filler V) (sample : Sample V)
    (tree : Tree V) : Prop where
  derived : grammar.Derived tree
  carried : ∀ leaf ∈ tree.leaves,
    Grammar.CarriesOffered (filler leaf.symbol sample) leaf.literal

namespace Filled

theorem leaf {symbol : Symbol} {literal : Option V}
    (carried : Grammar.CarriesOffered (filler symbol sample) literal) :
    Filled grammar filler sample (.node symbol literal []) where
  derived := .leaf symbol literal
  carried := by
    intro leaf only
    rw [mem_leaves_leaf.mp only]
    exact carried

theorem branch {symbol : Symbol} {children : List (Tree V)} (inner : children ≠ [])
    (spelled : children.map Tree.symbol ∈ grammar.alternatives symbol)
    (below : ∀ child ∈ children, Filled grammar filler sample child) :
    Filled grammar filler sample (.node symbol none children) where
  derived := .branch symbol children inner spelled fun child member =>
    (below child member).derived
  carried := by
    intro leaf member
    rcases (mem_leaves_node inner).mp member with ⟨child, among, under⟩
    exact (below child among).carried leaf under

end Filled

/-- Completing a derived tree without literals fills it. -/
theorem filled_of_mem_completions {sketch program : Tree V} (bare : grammar.Bare sketch)
    (member : program ∈ sketch.completions filler sample) :
    Filled grammar filler sample program := by
  induction sketch using Tree.induction generalizing program with
  | leaf symbol literal =>
      have unfilled := bare.unfilled _ (mem_leaves_leaf.mpr rfl)
      rw [Tree.literal] at unfilled
      subst unfilled
      rcases (mem_completions_leaf symbol program).mp member with ⟨literal, rfl, carried⟩
      exact .leaf carried
  | branch symbol literal child children ih =>
      rcases List.mem_map.mp member with ⟨completed, among, rfl⟩
      rcases bare.derived with _ | ⟨_, _, _, spelled, _⟩
      apply Filled.branch
      · exact ne_nil_of_mem_forestCompletions among (List.cons_ne_nil _ _)
      · rw [map_symbol_of_mem_forestCompletions among]
        exact spelled
      · intro program chosen
        rcases exists_of_mem_forestCompletions among chosen with ⟨tree, here, completion⟩
        exact ih tree here (bare.child here) completion

/-- A filled tree is a completion of its skeleton. -/
theorem mem_completions_skeleton {program : Tree V}
    (filled : Filled grammar filler sample program) :
    program ∈ program.skeleton.completions filler sample := by
  induction program using Tree.induction with
  | leaf symbol literal =>
      apply (mem_completions_leaf symbol _).mpr
      exact ⟨literal, rfl, filled.carried _ (mem_leaves_leaf.mpr rfl)⟩
  | branch symbol literal child children ih =>
      rcases filled with ⟨_ | ⟨_, _, inner, _, below⟩, carried⟩
      have each : child :: children ∈
          forestCompletions filler sample (forestSkeletons (child :: children)) := by
        rw [forestSkeletons_eq_map, mem_forestCompletions, List.forall₂_map_left_iff,
          List.forall₂_same]
        intro tree member
        apply ih tree member
        refine ⟨below tree member, ?_⟩
        intro leaf under
        apply carried
        exact (mem_leaves_node inner).mpr ⟨tree, member, under⟩
      exact List.mem_map.mpr ⟨_, each, rfl⟩

/-- The leaves of a skeleton are those of the tree without their literals. -/
theorem leaves_skeleton (tree : Tree V) : tree.skeleton.leaves = tree.leaves.map skeleton := by
  induction tree using Tree.induction with
  | leaf symbol literal => rfl
  | branch symbol literal child children ih =>
      have row : (skeleton (node symbol literal (child :: children))).leaves =
          ((child :: children).map skeleton).flatMap leaves := by
        rw [skeleton, forestSkeletons_eq_map, List.map_cons, leaves_node_cons]
      rw [row, leaves_node_cons, List.flatMap_map, List.map_flatMap]
      exact List.flatMap_congr ih

end Tree

namespace Grammar

variable {V : Type u} {grammar : Grammar} {filler : Filler V} {sample : Sample V}

/-- The completions of a sketch with nothing left to expand are programs. -/
theorem IsSketch.isProgram_of_mem_completions {sketch program : Tree V}
    (isSketch : grammar.IsSketch sketch)
    (complete : ∀ leaf ∈ sketch.leaves, grammar.isTerminal leaf.symbol = true)
    (member : program ∈ sketch.completions filler sample) :
    grammar.IsProgram filler sample program := by
  have completed := Tree.filled_of_mem_completions ⟨isSketch.derived, isSketch.bare⟩ member
  refine ⟨?_, completed.derived, ?_, completed.carried⟩
  · rw [Tree.symbol_of_mem_completions member]
    exact isSketch.root
  · intro leaf below
    rcases Tree.exists_hole_of_mem_completions member below with ⟨hole, there, same⟩
    rw [same]
    exact complete hole there

/-- A program completes its skeleton, in which nothing is left to expand. -/
theorem IsProgram.mem_completions_skeleton {program : Tree V}
    (isProgram : grammar.IsProgram filler sample program) :
    (∀ leaf ∈ program.skeleton.leaves, grammar.isTerminal leaf.symbol = true) ∧
      program ∈ program.skeleton.completions filler sample := by
  constructor
  · intro leaf member
    rw [Tree.leaves_skeleton] at member
    rcases List.mem_map.mp member with ⟨original, there, rfl⟩
    rw [Tree.symbol_skeleton]
    exact isProgram.terminal original there
  · exact Tree.mem_completions_skeleton ⟨isProgram.derived, isProgram.filled⟩

/-- The smallest grammar with a program: `e → c`. -/
def smallest : Grammar :=
  build 0 "e" [.symbol "c", .rule ⟨0, 0⟩ [⟨0, 1⟩]]

/-- The program of the smallest grammar that carries a given literal. -/
def smallestProgram (value : V) : Tree V :=
  .node ⟨0, 0⟩ none [.node ⟨0, 1⟩ (some value) []]

theorem isProgram_smallestProgram {value : V} (offered : value ∈ filler ⟨0, 1⟩ sample) :
    smallest.IsProgram filler sample (smallestProgram value) where
  root := rfl
  derived := by
    apply Derived.branch
    · intro impossible
      cases impossible
    · change [⟨0, 1⟩] ∈ smallest.alternatives ⟨0, 0⟩
      decide
    · intro child member
      rw [List.mem_singleton.mp member]
      exact .leaf _ _
  terminal := by
    intro leaf member
    rw [List.mem_singleton.mp member]
    change smallest.isTerminal ⟨0, 1⟩ = true
    decide
  filled := by
    intro leaf member
    rw [List.mem_singleton.mp member]
    exact offered

/-- A grammar in which the start symbol also stands for itself and for nothing:
`e → ε | e | c`. -/
def looping : Grammar :=
  build 0 "e"
    [.symbol "c", .rule ⟨0, 0⟩ [], .rule ⟨0, 0⟩ [⟨0, 0⟩], .rule ⟨0, 0⟩ [⟨0, 1⟩]]

/-- The same without the terminal: `e → ε | e`. -/
def endless : Grammar :=
  build 0 "e" [.rule ⟨0, 0⟩ [], .rule ⟨0, 0⟩ [⟨0, 0⟩]]

/-- A grammar with a rule given twice: `e → x x`, `x → c`, `x → c`. -/
def doubled : Grammar :=
  build 0 "e" [.symbol "x", .symbol "c", .rule ⟨0, 0⟩ [⟨0, 1⟩, ⟨0, 1⟩],
    .rule ⟨0, 1⟩ [⟨0, 2⟩], .rule ⟨0, 1⟩ [⟨0, 2⟩]]

/-- Its program with the literals one and two. -/
def doubledProgram : Tree Nat :=
  .node ⟨0, 0⟩ none [.node ⟨0, 1⟩ none [.node ⟨0, 2⟩ (some 1) []],
    .node ⟨0, 1⟩ none [.node ⟨0, 2⟩ (some 2) []]]

theorem isProgram_doubledProgram :
    doubled.IsProgram (fun _ _ => [1, 2]) ⟨3, []⟩ doubledProgram where
  root := rfl
  derived := by
    have half : ∀ value : Nat, doubled.Derived
        (.node ⟨0, 1⟩ none [.node ⟨0, 2⟩ (some value) []]) := by
      intro value
      apply Derived.branch _ _ (List.cons_ne_nil _ _)
      · change [⟨0, 2⟩] ∈ doubled.alternatives ⟨0, 1⟩
        decide
      · intro child member
        rw [List.mem_singleton.mp member]
        exact .leaf _ _
    apply Derived.branch _ _ (List.cons_ne_nil _ _)
    · change [⟨0, 1⟩, ⟨0, 1⟩] ∈ doubled.alternatives ⟨0, 0⟩
      decide
    · intro child member
      rcases List.mem_pair.mp member with rfl | rfl
      · exact half 1
      · exact half 2
  terminal := by
    intro leaf member
    rcases List.mem_pair.mp member with rfl | rfl <;> decide
  filled := by
    intro leaf member
    rcases List.mem_pair.mp member with rfl | rfl
    · exact List.mem_cons_self
    · exact List.mem_cons_of_mem _ List.mem_cons_self

end Grammar
end ProgramSearch
