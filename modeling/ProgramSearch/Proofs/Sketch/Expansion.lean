import Mathlib.Data.List.Basic
import ProgramSearch.Proofs.Tree.Children
import ProgramSearch.Sketch.Expansion
import ProgramSearch.Sketch.Rewriting

namespace ProgramSearch

/-!
# Expansion by paths is rewriting of leaves

The expansions of a sketch are computed from the paths of its nonterminal leaves.
They are its rewritings, in the same order and number, and a sketch is complete
exactly when no leaf of it is a nonterminal.
-/

universe u

variable {V : Type u}

namespace Grammar

theorem alternatives_of_isTerminal {grammar : Grammar} {symbol : Symbol}
    (terminal : grammar.isTerminal symbol = true) : grammar.alternatives symbol = [] := by
  rw [isTerminal, Bool.and_eq_true, List.isEmpty_iff] at terminal
  exact terminal.2

/-- Expanding below one child expands that child among its siblings. -/
theorem expansionsAt_child (grammar : Grammar) (symbol : Symbol) (literal : Option V)
    (before : List (Tree V)) (child : Tree V) (behind : List (Tree V)) (path : List Nat) :
    grammar.expansionsAt (.node symbol literal (before ++ child :: behind))
        (before.length :: path) =
      (grammar.expansionsAt child path).map fun expanded =>
        .node symbol literal (before ++ expanded :: behind) := by
  unfold expansionsAt
  rw [Tree.descendant?_child]
  cases Tree.descendant? path child with
  | none => rfl
  | some leaf => simp only [Tree.updateAt?_child, List.map_filterMap]

/-- The expansions of a row of children, for children of which each is expanded by
rewriting. -/
private theorem forest_expansions (grammar : Grammar) (symbol : Symbol)
    (literal : Option V) (trees : List (Tree V))
    (each : ∀ tree ∈ trees, grammar.expansions tree = tree.rewrites grammar)
    (before : List (Tree V)) :
    (Tree.forestLeafPathsWhere (fun leaf => grammar.isNonterminal leaf.symbol)
        before.length trees).flatMap
        (grammar.expansionsAt (.node symbol literal (before ++ trees))) =
      (Tree.forestRewrites grammar trees).map fun rewritten =>
        .node symbol literal (before ++ rewritten) := by
  induction trees generalizing before with
  | nil => rfl
  | cons tree trees ih =>
      have first : ((tree.nonterminalLeafPaths grammar).map (before.length :: ·)).flatMap
            (grammar.expansionsAt (.node symbol literal (before ++ tree :: trees))) =
          (tree.rewrites grammar).map fun rewritten =>
            .node symbol literal (before ++ rewritten :: trees) := by
        rw [List.flatMap_map, ← each tree List.mem_cons_self, expansions, List.map_flatMap]
        apply List.flatMap_congr
        intro path _
        exact grammar.expansionsAt_child symbol literal before tree trees path
      have others := ih (fun tree member => each tree (List.mem_cons_of_mem _ member))
        (before ++ [tree])
      simp only [List.length_append, List.length_singleton, List.append_assoc,
        List.singleton_append] at others
      rw [Tree.forestLeafPathsWhere, List.flatMap_append, Tree.forestRewrites,
        List.map_append, List.map_map, List.map_map, others]
      exact congrArg (· ++ _) first

/-- The expansions of a sketch are its rewritings. -/
theorem expansions_eq_rewrites (grammar : Grammar) (sketch : Tree V) :
    grammar.expansions sketch = sketch.rewrites grammar := by
  induction sketch using Tree.induction with
  | leaf symbol literal =>
      by_cases terminal : grammar.isTerminal symbol = true
      · have none := alternatives_of_isTerminal terminal
        simp [expansions, Tree.nonterminalLeafPaths, Tree.leafPathsWhere, isNonterminal,
          Tree.symbol, Tree.rewrites, terminal, none]
      · simp [expansions, Tree.nonterminalLeafPaths, Tree.leafPathsWhere, isNonterminal,
          Tree.symbol, Tree.rewrites, terminal, expansionsAt, Tree.descendant?,
          Tree.updateAt?]
  | branch symbol literal child children ih =>
      have forest := grammar.forest_expansions symbol literal (child :: children) ih []
      rw [expansions, Tree.nonterminalLeafPaths, Tree.leafPathsWhere_node_cons,
        Tree.rewrites]
      exact forest

theorem nonterminalLeaves_eq_nil_iff (grammar : Grammar) (sketch : Tree V) :
    sketch.nonterminalLeaves grammar = [] ↔
      ∀ leaf ∈ sketch.leaves, grammar.isTerminal leaf.symbol = true := by
  simp [Tree.nonterminalLeaves, isNonterminal, List.filter_eq_nil_iff]

/-- A sketch has no path to expand exactly when none of its leaves is a nonterminal. -/
theorem isComplete_eq_isEmpty (grammar : Grammar) (sketch : Tree V) :
    grammar.isComplete sketch = (sketch.nonterminalLeaves grammar).isEmpty := by
  rw [Bool.eq_iff_iff, isComplete, List.isEmpty_iff, List.isEmpty_iff,
    Tree.nonterminalLeafPaths, Tree.leafPathsWhere_eq_nil_iff,
    nonterminalLeaves_eq_nil_iff]
  simp only [isNonterminal, Bool.not_eq_false']

/-- A sketch with nothing left to expand is rewritten to nothing. -/
theorem rewrites_eq_nil_of_isComplete {grammar : Grammar} {sketch : Tree V}
    (complete : grammar.isComplete sketch = true) : sketch.rewrites grammar = [] := by
  rw [isComplete, List.isEmpty_iff] at complete
  rw [← expansions_eq_rewrites, expansions, complete, List.flatMap_nil]

end Grammar
end ProgramSearch
