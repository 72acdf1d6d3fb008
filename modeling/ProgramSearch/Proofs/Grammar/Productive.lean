import Mathlib.Data.List.Basic
import ProgramSearch.Grammar.Validity
import ProgramSearch.Proofs.Sketch.Program

namespace ProgramSearch
namespace Grammar

/-!
# Productive heads are those that can be completed

Each round keeps the heads found before, and a round that finds no further head is followed
by such rounds only.  As many rounds as there are heads therefore reach all that can be
reached.  A symbol settled in this way is the root of a tree that is expanded to terminals
everywhere and filled with what is offered; conversely every symbol at the root of such a
tree is settled, if all symbols with alternatives are among the heads.
-/

universe u

variable {V : Type u} {grammar : Grammar}

/-! ## The rounds come to rest -/

theorem settled_mono {known more : List Symbol} (le : known ⊆ more) {symbol : Symbol}
    (settled : grammar.settled known symbol = true) : grammar.settled more symbol = true := by
  rw [Grammar.settled, Bool.or_eq_true, List.contains_iff_mem] at settled ⊢
  exact settled.imp_right fun member => le member

theorem completes_iff {known body : List Symbol} :
    grammar.completes known body = true ↔
      body ≠ [] ∧ ∀ symbol ∈ body, grammar.settled known symbol = true := by
  rw [completes, Bool.and_eq_true, Bool.not_eq_true', List.isEmpty_eq_false_iff,
    List.all_eq_true]

theorem mem_productiveRound {known : List Symbol} {head : Symbol} :
    head ∈ grammar.productiveRound known ↔
      head ∈ grammar.heads ∧ ∃ body ∈ grammar.alternatives head,
        body ≠ [] ∧ ∀ symbol ∈ body, grammar.settled known symbol = true := by
  simp only [productiveRound, List.mem_filter, List.any_eq_true, completes_iff]

/-- A round loses no head when more is known. -/
theorem productiveRound_sublist {known more : List Symbol} (le : known ⊆ more) :
    (grammar.productiveRound known).Sublist (grammar.productiveRound more) := by
  apply List.monotone_filter_right
  intro head found
  rw [List.any_eq_true] at found ⊢
  rcases found with ⟨body, alternative, completing⟩
  rw [completes_iff] at completing
  refine ⟨body, alternative, completes_iff.mpr ⟨completing.1, fun symbol member => ?_⟩⟩
  exact settled_mono le (completing.2 symbol member)

theorem productiveWithin_sublist_succ (grammar : Grammar) (rounds : Nat) :
    (grammar.productiveWithin rounds).Sublist (grammar.productiveWithin (rounds + 1)) := by
  induction rounds with
  | zero => exact List.nil_sublist _
  | succ rounds ih => exact productiveRound_sublist ih.subset

/-- After each round the heads are those of the round before, or more than the rounds. -/
theorem productiveWithin_succ_eq_or_lt (grammar : Grammar) (rounds : Nat) :
    grammar.productiveWithin (rounds + 1) = grammar.productiveWithin rounds ∨
      rounds < (grammar.productiveWithin (rounds + 1)).length := by
  induction rounds with
  | zero =>
      rcases Nat.eq_zero_or_pos (grammar.productiveWithin 1).length with none | some
      · exact Or.inl (List.length_eq_zero_iff.mp none)
      · exact Or.inr some
  | succ rounds ih =>
      rcases ih with rest | many
      · exact Or.inl (congrArg grammar.productiveRound rest)
      · have kept := grammar.productiveWithin_sublist_succ (rounds + 1)
        rcases Nat.lt_or_ge rounds.succ
          (grammar.productiveWithin (rounds + 2)).length with more | fewer
        · exact Or.inr more
        · exact Or.inl (kept.eq_of_length_le (Nat.le_trans fewer many)).symm

/-- A further round finds no further head. -/
theorem productiveRound_productiveHeads (grammar : Grammar) :
    grammar.productiveRound grammar.productiveHeads = grammar.productiveHeads := by
  rcases grammar.productiveWithin_succ_eq_or_lt grammar.heads.length with rest | many
  · exact rest
  · have among : (grammar.productiveWithin (grammar.heads.length + 1)).length ≤
        grammar.heads.length := List.length_filter_le _ _
    exact absurd many (Nat.not_lt_of_le among)

/-! ## Settled symbols are the roots of completed trees -/

/-- A row of trees with the given symbols at their roots, each taken from those at hand. -/
theorem exists_row {good : Tree V → Prop} {body : List Symbol}
    (each : ∀ symbol ∈ body, ∃ tree : Tree V, tree.symbol = symbol ∧ good tree) :
    ∃ trees : List (Tree V), trees.map Tree.symbol = body ∧ ∀ tree ∈ trees, good tree := by
  induction body with
  | nil => exact ⟨[], rfl, fun tree member => absurd member List.not_mem_nil⟩
  | cons symbol body ih =>
      rcases each symbol List.mem_cons_self with ⟨tree, root, right⟩
      rcases ih fun other member => each other (List.mem_cons_of_mem _ member) with
        ⟨trees, roots, rights⟩
      refine ⟨tree :: trees, by rw [List.map_cons, root, roots], ?_⟩
      exact List.forall_mem_cons.mpr ⟨right, rights⟩

/-- A tree expanded to terminals everywhere and filled with what is offered. -/
structure Completed (grammar : Grammar) (filler : Filler V) (sample : Sample V)
    (tree : Tree V) : Prop where
  filled : Tree.Filled grammar filler sample tree
  terminal : ∀ leaf ∈ tree.leaves, grammar.isTerminal leaf.symbol = true

/-- Some literal, or none, may always be carried. -/
theorem carriesOffered_head? (offered : List V) : CarriesOffered offered offered.head? := by
  cases offered with
  | nil => rfl
  | cons first offered => exact List.mem_cons_self

/-- A settled symbol is the root of a completed tree, whatever is offered. -/
theorem exists_completed_of_settled (filler : Filler V) (sample : Sample V) {rounds : Nat}
    {symbol : Symbol}
    (settled : grammar.settled (grammar.productiveWithin rounds) symbol = true) :
    ∃ tree : Tree V, tree.symbol = symbol ∧ grammar.Completed filler sample tree := by
  have ofTerminal : ∀ symbol, grammar.isTerminal symbol = true →
      ∃ tree : Tree V, tree.symbol = symbol ∧ grammar.Completed filler sample tree := by
    intro symbol terminal
    refine ⟨.node symbol (filler symbol sample).head? [], rfl, ?_, ?_⟩
    · exact .leaf (carriesOffered_head? _)
    · intro leaf only
      rw [Tree.mem_leaves_leaf.mp only]
      exact terminal
  induction rounds generalizing symbol with
  | zero =>
      rw [Grammar.settled, productiveWithin, List.contains_nil, Bool.or_false] at settled
      exact ofTerminal symbol settled
  | succ rounds ih =>
      rw [Grammar.settled, Bool.or_eq_true, List.contains_iff_mem] at settled
      rcases settled with terminal | found
      · exact ofTerminal symbol terminal
      · rcases mem_productiveRound.mp found with ⟨_, body, alternative, inner, each⟩
        rcases exists_row fun symbol member => ih (each symbol member) with
          ⟨children, spelled, completed⟩
        have some : children ≠ [] := by
          rintro rfl
          exact inner spelled.symm
        refine ⟨.node symbol none children, rfl, ?_, ?_⟩
        · apply Tree.Filled.branch some
          · rw [spelled]
            exact alternative
          · intro child member
            exact (completed child member).filled
        · intro leaf member
          rcases (Tree.mem_leaves_node some).mp member with ⟨child, among, under⟩
          exact (completed child among).terminal leaf under

/-- The root of a derived tree with terminals at its leaves is settled. -/
theorem settled_of_derived (headed : ∀ symbol, grammar.alternatives symbol ≠ [] →
      symbol ∈ grammar.heads) {tree : Tree V} (derived : grammar.Derived tree)
    (terminal : ∀ leaf ∈ tree.leaves, grammar.isTerminal leaf.symbol = true) :
    grammar.settled grammar.productiveHeads tree.symbol = true := by
  induction tree using Tree.induction with
  | leaf symbol literal =>
      have last := terminal _ (Tree.mem_leaves_leaf.mpr rfl)
      rw [Grammar.settled, Bool.or_eq_true]
      exact Or.inl last
  | branch symbol literal child children ih =>
      rcases derived with _ | ⟨_, _, inner, spelled, below⟩
      have found : symbol ∈ grammar.productiveRound grammar.productiveHeads := by
        refine mem_productiveRound.mpr ⟨headed symbol (List.ne_nil_of_mem spelled), _,
          spelled, by simp, ?_⟩
        intro other member
        rcases List.mem_map.mp member with ⟨tree, here, rfl⟩
        apply ih tree here (below tree here)
        intro leaf under
        exact terminal leaf ((Tree.mem_leaves_node inner).mpr ⟨tree, here, under⟩)
      rw [productiveRound_productiveHeads] at found
      rw [Grammar.settled, Bool.or_eq_true, List.contains_iff_mem]
      exact Or.inr found

/-- If all symbols with alternatives are among the heads, then the settled symbols are those
that some derived tree leads from to terminals only. -/
theorem settled_iff_completable (headed : ∀ symbol, grammar.alternatives symbol ≠ [] →
      symbol ∈ grammar.heads) {symbol : Symbol} :
    grammar.settled grammar.productiveHeads symbol = true ↔ grammar.Completable symbol := by
  constructor
  · intro settled
    rcases exists_completed_of_settled (fun _ _ => []) ⟨(), []⟩ settled with
      ⟨tree, root, completed⟩
    exact ⟨tree, root, completed.filled.derived, completed.terminal⟩
  · rintro ⟨tree, rfl, derived, terminal⟩
    exact settled_of_derived headed derived terminal

end Grammar
end ProgramSearch
