import ProgramSearch.Grammar.Lookup
import ProgramSearch.Proofs.Grammar.Classification
import ProgramSearch.Proofs.Grammar.Reachability

namespace ProgramSearch
namespace Grammar

/-!
# Where no question breaks off

A grammar that is built from symbols of its own and of other grammars never comes to a symbol
past its table, however it is asked.  Only a copy can: it takes a symbol that its original has
minted since for one of its own.
-/

/-- All symbols that stand in a rule can be looked up. -/
def AdmitsRules (grammar : Grammar) : Prop :=
  ∀ head, ∀ body ∈ grammar.alternatives head, ∀ symbol ∈ body, grammar.Admits symbol

variable {grammar : Grammar}

theorem withinTable_of_admitsRules (first : grammar.Admits grammar.start)
    (rules : grammar.AdmitsRules) : grammar.WithinTable := by
  intro symbol reachable
  rcases reachable with rfl | path
  · exact first
  · rcases Relation.TransGen.tail'_iff.mp path with ⟨head, _, body, alternative, inside⟩
    exact rules head body alternative symbol inside

theorem mentionsAbroad_eq (rules : grammar.AdmitsRules) (head : Symbol) :
    grammar.mentionsAbroad head = grammar.mentionsForeign head := by
  rw [Bool.eq_iff_iff, mentionsAbroad, mentionsForeign, List.any_eq_true, List.any_eq_true]
  refine exists_congr fun body => and_congr_right fun alternative => ?_
  rw [List.any_eq_true, List.any_eq_true]
  refine exists_congr fun symbol => and_congr_right fun inside => ?_
  have admits := rules head body alternative symbol inside
  rw [decide_eq_true_iff, Bool.not_eq_true', ← Bool.not_eq_true]
  exact not_congr ⟨admits, owner_of_owns⟩

/-- Validation does not break off where all symbols in the rules can be looked up. -/
theorem validate?_eq_some (headed : ∀ head ∈ grammar.heads, grammar.owns head = true)
    (rules : grammar.AdmitsRules) : grammar.validate? = some grammar.validate := by
  have search : grammar.heads.find? grammar.mentionsAbroad =
      grammar.heads.find? grammar.mentionsForeign :=
    congrArg grammar.heads.find? (funext (mentionsAbroad_eq rules))
  rw [validate?, search]
  cases kept : grammar.foreignHead with
  | true => rw [validate_of_foreignHead kept, if_pos rfl]
  | false =>
      rw [if_neg (by simp)]
      cases first : grammar.heads.find? grammar.mentionsForeign with
      | some head => rw [validate_of_find?_eq_some kept first]
      | none =>
          rcases exists_productiveMarks? (native_of_find?_eq_none headed first) with
            ⟨_, marks, _, _, final, _⟩
          rw [validate_of_find?_eq_none kept first, isProductive, final]
          simp only [Option.map_some, decide_eq_true_iff]
          split <;> rfl

section Construction

variable {identity : Nat} {startName : String} {steps : List GrammarStep}
  (refers : (create identity startName).RefersBack steps)
include refers

theorem admitsRules_build : (build identity startName steps).AdmitsRules := by
  intro head body alternative symbol inside own
  rw [identity_build] at own
  by_cases native : head.owner = identity
  · have among := (mem_alternatives_build refers native).mp alternative
    exact owns_foldl_extend_of_refersBack refers among (List.mem_cons_of_mem _ inside) own
  · rw [← identity_build identity startName steps] at native
    rw [alternatives_eq_nil_of_foreign native] at alternative
    cases alternative

theorem withinTable_build : (build identity startName steps).WithinTable :=
  withinTable_of_admitsRules (fun _ => owns_start_build _ _ _) (admitsRules_build refers)

/-- For such a grammar validation always answers. -/
theorem validate?_build : (build identity startName steps).validate? =
    some (build identity startName steps).validate :=
  validate?_eq_some owns_of_mem_heads_build (admitsRules_build refers)

end Construction

end Grammar
end ProgramSearch
