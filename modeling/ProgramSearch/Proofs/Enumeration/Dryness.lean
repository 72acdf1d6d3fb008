import ProgramSearch.Proofs.Enumeration.Ending
import ProgramSearch.Proofs.Grammar.Reachability

namespace ProgramSearch

/-!
# When an enumeration can run dry

All levels together hold finitely many sketches exactly when no symbol within reach of the
start symbol recurs.  An enumeration that is never cancelled ends because nothing waits
when its limit covers all of them, so this decides whether any limit is enough.
-/

universe u

variable {V : Type u}

namespace Grammar

theorem sketchCount_eq_top_of_recurs {grammar : Grammar} {knot : Symbol}
    (reachable : grammar.Reachable knot) (recurs : grammar.Recurs knot) :
    grammar.sketchCount V = ⊤ := by
  rw [ENat.eq_top_iff_forall_ge]
  intro count
  have enough : count ≤ (grammar.levelsBelow count : List (Tree V)).length := by
    apply le_length_levelsBelow
    intro earlier _
    rcases recurs.exists_mem_level (V := V) reachable earlier with ⟨sketch, among, _⟩
    exact List.ne_nil_of_mem among
  exact le_trans (by exact_mod_cast enough) (grammar.length_levelsBelow_le_sketchCount count)

/-- The levels hold finitely many sketches exactly when no symbol within reach recurs. -/
theorem sketchCount_ne_top_iff (grammar : Grammar) :
    grammar.sketchCount V ≠ ⊤ ↔
      ∀ symbol, grammar.Reachable symbol → ¬ grammar.Recurs symbol := by
  constructor
  · intro finite symbol reachable recurs
    exact finite (sketchCount_eq_top_of_recurs reachable recurs)
  · intro calm
    rcases exists_walkEnds_eq_nil calm (Tree.leaf grammar.start : Tree V) (by
        intro leaf only
        rw [Tree.mem_leaves_leaf.mp only]
        exact Or.inl rfl) with ⟨dry, nothing⟩
    rw [← level_eq_walkEnds] at nothing
    have all : grammar.sketchCount V ≤
        ((grammar.levelsBelow dry : List (Tree V)).length : ℕ∞) := by
      apply iSup_le
      intro count
      rcases Nat.le_total count dry with le | le
      · exact_mod_cast (grammar.levelsBelow_prefix le).length_le
      · rw [levelsBelow_eq_of_dry nothing le]
    exact ne_top_of_le_ne_top (ENat.natCast_ne_top _) all

end Grammar

namespace Enumeration

/-- Some limit is enough for an enumeration to run dry, as long as it is not cancelled,
exactly when no nonterminal within reach of the start symbol has an empty alternative or
leads back to itself. -/
theorem runs_dry_iff (grammar : Grammar) (filler : Filler V) (sample : Sample V)
    (signals : Signals) :
    (∃ budget : Budget, budget.isCancelled signals = false ∧
      ((start (Problem.mk grammar filler sample budget)).drain signals).2.exhausted =
        some .frontierEmpty) ↔
      ∀ symbol, grammar.Reachable symbol → grammar.isNonterminal symbol = true →
        [] ∉ grammar.alternatives symbol ∧
          ¬ Relation.TransGen grammar.Mentions symbol symbol := by
  rw [Grammar.forall_not_recurs_iff, ← grammar.sketchCount_ne_top_iff (V := V)]
  constructor
  · rintro ⟨budget, _, dry⟩
    rcases reached_drain signals (Problem.mk grammar filler sample budget) with
      ⟨taken, reached, _⟩
    have count := reached.sketchCount_eq_of_dry (reached.justified _ dry)
    intro infinite
    rw [infinite] at count
    exact ENat.top_ne_natCast _ count
  · intro finite
    rcases ENat.ne_top_iff_exists.mp finite with ⟨limit, count⟩
    refine ⟨Budget.ofLimit limit, rfl, ?_⟩
    let problem := Problem.mk grammar filler sample (Budget.ofLimit limit)
    rcases reached_drain signals problem with ⟨taken, reached, ended⟩
    have quiet := exhausted_drain_ne_cancelled signals problem rfl
    rcases reached.exhausted_cases ended quiet with ⟨_, dry⟩ | ⟨many, _⟩
    · exact dry
    · rw [← count] at many
      exact absurd many (lt_irrefl _)

end Enumeration
end ProgramSearch
