import Mathlib.Data.Set.Finite.List
import Mathlib.Logic.Hydra
import Mathlib.Order.WellFoundedSet
import Mathlib.Tactic.Abel
import ProgramSearch.Proofs.Grammar.Rewriting
import ProgramSearch.Proofs.Sketch.Walk

namespace ProgramSearch
namespace Grammar

/-!
# Which grammars derive finitely many sketches

A symbol recurs when it has an empty alternative or leads back to itself.  From a symbol
that leads to a recurring one some rewriting always leads on, so every level holds a sketch.
Without a recurring symbol within reach, the symbols within reach are ordered by what they
mention, and this order is well founded because there are finitely many.  A rewriting then
replaces one leaf by leaves further down, so the leaves of a sketch, as a multiset, decrease
along every walk, and all walks are shorter than some bound.
-/

universe u

variable {V : Type u} {grammar : Grammar}

/-- An alternative is recorded in some entry of the table. -/
theorem exists_entry_of_mem_alternatives {symbol : Symbol} {body : List Symbol}
    (alternative : body ∈ grammar.alternatives symbol) :
    ∃ entry ∈ grammar.table.toList, body ∈ entry.alternatives := by
  rw [alternatives] at alternative
  cases found : grammar.entryOf? symbol with
  | none =>
      rw [found] at alternative
      cases alternative
  | some entry =>
      rw [found] at alternative
      rw [entryOf?] at found
      split at found
      · exact ⟨entry, Array.mem_toList_iff.mpr (Array.mem_of_getElem? found), alternative⟩
      · cases found

theorem isNonterminal_of_mem_alternatives {symbol : Symbol} {body : List Symbol}
    (alternative : body ∈ grammar.alternatives symbol) :
    grammar.isNonterminal symbol = true := by
  have some : (grammar.alternatives symbol).isEmpty = false :=
    List.isEmpty_eq_false_iff.mpr (List.ne_nil_of_mem alternative)
  rw [isNonterminal, isTerminal, some, Bool.and_false, Bool.not_false]

theorem Reachable.mentions {head symbol : Symbol} (reachable : grammar.Reachable head)
    (mentions : grammar.Mentions head symbol) : grammar.Reachable symbol := by
  rcases reachable with rfl | path
  · exact Or.inr (.single mentions)
  · exact Or.inr (path.tail mentions)

/-- Rewriting stays within reach. -/
theorem reachable_of_mem_rewrites {tree rewritten : Tree V}
    (reachable : ∀ leaf ∈ tree.leaves, grammar.Reachable leaf.symbol)
    (rewriting : rewritten ∈ tree.rewrites grammar) :
    ∀ leaf ∈ rewritten.leaves, grammar.Reachable leaf.symbol := by
  rcases expands_of_mem_rewrites rewriting with ⟨left, leaf, right, body, expands⟩
  by_cases empty : body = []
  · rw [expands.kept empty]
    exact reachable
  · intro other member
    rw [expands.place] at reachable
    rw [expands.replaced empty, List.append_assoc] at member
    rcases List.mem_append.mp member with before | member
    · exact reachable other (List.mem_append_left _ before)
    · rcases List.mem_append.mp member with new | behind
      · rcases List.mem_map.mp new with ⟨symbol, among, rfl⟩
        have head := reachable leaf (List.mem_append_right _ List.mem_cons_self)
        exact head.mentions ⟨body, expands.alternative, among⟩
      · exact reachable other (List.mem_append_right _ (List.mem_cons_of_mem _ behind))

theorem reachable_of_mem_level {count : Nat} {sketch : Tree V}
    (member : sketch ∈ grammar.level count) :
    ∀ leaf ∈ sketch.leaves, grammar.Reachable leaf.symbol := by
  induction count generalizing sketch with
  | zero =>
      intro leaf only
      rw [List.mem_singleton.mp member, Tree.leaf, Tree.leaves, List.mem_singleton] at only
      rw [only]
      exact Or.inl rfl
  | succ count ih =>
      rcases List.mem_flatMap.mp member with ⟨earlier, among, rewriting⟩
      exact reachable_of_mem_rewrites (ih among) rewriting

/-! ## A recurring symbol keeps every level alive -/

/-- A symbol that can be expanded without end: it has an empty alternative or leads back to
itself. -/
def Recurs (grammar : Grammar) (symbol : Symbol) : Prop :=
  [] ∈ grammar.alternatives symbol ∨ Relation.TransGen grammar.Mentions symbol symbol

theorem Recurs.isNonterminal {symbol : Symbol} (recurs : grammar.Recurs symbol) :
    grammar.isNonterminal symbol = true := by
  rcases recurs with empty | cycle
  · exact isNonterminal_of_mem_alternatives empty
  · rcases Relation.TransGen.head'_iff.mp cycle with ⟨_, ⟨body, alternative, _⟩, _⟩
    exact isNonterminal_of_mem_alternatives alternative

/-- Only nonterminals have to be looked at. -/
theorem forall_not_recurs_iff (grammar : Grammar) :
    (∀ symbol, grammar.Reachable symbol → grammar.isNonterminal symbol = true →
        [] ∉ grammar.alternatives symbol ∧
          ¬ Relation.TransGen grammar.Mentions symbol symbol) ↔
      ∀ symbol, grammar.Reachable symbol → ¬ grammar.Recurs symbol := by
  constructor
  · intro each symbol reachable recurs
    rcases each symbol reachable recurs.isNonterminal with ⟨full, acyclic⟩
    exact recurs.elim full acyclic
  · intro calm symbol reachable _
    exact not_or.mp (calm symbol reachable)

/-- A symbol that leads to a recurring one has an empty alternative or mentions a symbol
that leads there. -/
theorem Recurs.continues {knot symbol : Symbol} (recurs : grammar.Recurs knot)
    (leads : Relation.ReflTransGen grammar.Mentions symbol knot) :
    [] ∈ grammar.alternatives symbol ∨
      ∃ next, grammar.Mentions symbol next ∧
        Relation.ReflTransGen grammar.Mentions next knot := by
  rcases leads.cases_head with rfl | onward
  · exact recurs.imp_right Relation.TransGen.head'_iff.mp
  · exact Or.inr onward

/-- A tree with a leaf that leads to a recurring symbol is rewritten to such a tree. -/
theorem Recurs.exists_rewrites {knot : Symbol} (recurs : grammar.Recurs knot)
    {tree leaf : Tree V} (member : leaf ∈ tree.leaves)
    (leads : Relation.ReflTransGen grammar.Mentions leaf.symbol knot) :
    ∃ rewritten ∈ tree.rewrites grammar, ∃ last ∈ rewritten.leaves,
      Relation.ReflTransGen grammar.Mentions last.symbol knot := by
  rcases recurs.continues leads with empty | ⟨next, ⟨body, alternative, among⟩, further⟩
  · rcases exists_expands member empty with ⟨rewritten, rewriting, _, _, expands⟩
    rw [expands.kept rfl] at rewriting
    exact ⟨tree, rewriting, leaf, member, leads⟩
  · rcases exists_expands member alternative with ⟨rewritten, rewriting, _, _, expands⟩
    refine ⟨rewritten, rewriting, Tree.leaf next, ?_, further⟩
    rw [expands.replaced (List.ne_nil_of_mem among)]
    exact List.mem_append_left _ (List.mem_append_right _ (List.mem_map_of_mem among))

theorem Recurs.exists_mem_level {knot : Symbol} (recurs : grammar.Recurs knot)
    (reachable : grammar.Reachable knot) (count : Nat) :
    ∃ sketch ∈ (grammar.level count : List (Tree V)), ∃ leaf ∈ sketch.leaves,
      Relation.ReflTransGen grammar.Mentions leaf.symbol knot := by
  induction count with
  | zero =>
      refine ⟨_, List.mem_singleton_self _, _, Tree.mem_leaves_leaf.mpr rfl, ?_⟩
      rcases reachable with rfl | path
      · exact .refl
      · exact path.to_reflTransGen
  | succ count ih =>
      rcases ih with ⟨sketch, among, leaf, member, leads⟩
      rcases recurs.exists_rewrites member leads with ⟨rewritten, rewriting, further⟩
      exact ⟨rewritten, List.mem_flatMap.mpr ⟨sketch, among, rewriting⟩, further⟩

/-! ## Without a recurring symbol all walks end -/

theorem finite_setOf_reachable (grammar : Grammar) :
    {symbol | grammar.Reachable symbol}.Finite := by
  let mentioned := (grammar.table.toList.flatMap Entry.alternatives).flatten
  apply (List.finite_toSet (grammar.start :: mentioned)).subset
  rintro symbol (rfl | path)
  · exact List.mem_cons_self
  · apply List.mem_cons_of_mem
    rcases Relation.TransGen.tail'_iff.mp path with ⟨head, _, body, alternative, member⟩
    rcases exists_entry_of_mem_alternatives alternative with ⟨entry, among, here⟩
    have registered : body ∈ grammar.table.toList.flatMap Entry.alternatives :=
      List.mem_flatMap.mpr ⟨entry, among, here⟩
    exact List.mem_flatten.mpr ⟨body, registered, member⟩

/-- Symbols within reach are well founded by mention if none of them leads back to itself. -/
theorem wellFounded_mentions
    (acyclic : ∀ symbol, grammar.Reachable symbol →
      ¬ Relation.TransGen grammar.Mentions symbol symbol) :
    WellFounded fun below head => grammar.Reachable head ∧ grammar.Mentions head below := by
  let Below := fun below head =>
    grammar.Reachable head ∧ Relation.TransGen grammar.Mentions head below
  have strict : IsStrictOrder Symbol Below :=
    { irrefl := fun symbol ⟨reachable, path⟩ => acyclic symbol reachable path
      trans := fun _ _ _ ⟨_, further⟩ ⟨reachable, path⟩ =>
        ⟨reachable, path.trans further⟩ }
  have wellFounded := Set.wellFoundedOn_iff.mp
    (grammar.finite_setOf_reachable.wellFoundedOn (r := Below))
  refine Subrelation.wf ?_ wellFounded
  rintro below head ⟨reachable, mentions⟩
  exact ⟨⟨reachable, .single mentions⟩, reachable.mentions mentions, reachable⟩

/-- The symbols at the leaves of a tree. -/
def leafSymbols (tree : Tree V) : Multiset Symbol :=
  tree.leaves.map Tree.symbol

/-- Expanding a leaf by a non-empty alternative replaces its symbol by those it mentions. -/
theorem Expands.cutExpand {tree rewritten : Tree V} {left : List (Tree V)} {leaf : Tree V}
    {right : List (Tree V)} {body : List Symbol}
    (expands : grammar.Expands tree rewritten left leaf right body) (inner : body ≠ [])
    (reachable : grammar.Reachable leaf.symbol) :
    Relation.CutExpand
      (fun below head => grammar.Reachable head ∧ grammar.Mentions head below)
      (leafSymbols rewritten) (leafSymbols tree) := by
  refine ⟨(body : Multiset Symbol), leaf.symbol, ?_, ?_⟩
  · intro below member
    exact ⟨reachable, body, expands.alternative, member⟩
  · have symbols : (body.map (Tree.leaf : Symbol → Tree V)).map Tree.symbol = body := by
      rw [List.map_map]
      exact List.map_id _
    rw [leafSymbols, leafSymbols, expands.replaced inner, expands.place]
    simp only [List.map_append, List.map_cons, symbols, ← Multiset.coe_add,
      ← Multiset.cons_coe, ← Multiset.singleton_add]
    abel

/-- Without a recurring symbol within reach, walks from a tree are bounded. -/
theorem exists_walkEnds_eq_nil
    (calm : ∀ symbol, grammar.Reachable symbol → ¬ grammar.Recurs symbol) (tree : Tree V)
    (reachable : ∀ leaf ∈ tree.leaves, grammar.Reachable leaf.symbol) :
    ∃ bound, walkEnds (Tree.rewrites grammar) bound tree = [] := by
  have wellFounded := (wellFounded_mentions fun symbol within path =>
    calm symbol within (Or.inr path)).cutExpand
  generalize measure : leafSymbols tree = symbols
  induction symbols using wellFounded.induction generalizing tree with
  | _ symbols ih =>
      have each : ∀ rewritten ∈ tree.rewrites grammar,
          ∃ bound, walkEnds (Tree.rewrites grammar) bound rewritten = [] := by
        intro rewritten rewriting
        rcases expands_of_mem_rewrites rewriting with ⟨left, leaf, right, body, expands⟩
        have within := reachable leaf expands.mem_leaves
        have inner : body ≠ [] := by
          rintro rfl
          exact calm leaf.symbol within (Or.inl expands.alternative)
        apply ih (leafSymbols rewritten) _ rewritten _ rfl
        · rw [← measure]
          exact expands.cutExpand inner within
        · exact reachable_of_mem_rewrites reachable rewriting
      rcases exists_bound each with ⟨bound, dry⟩
      exact ⟨bound + 1, List.flatMap_eq_nil_iff.mpr dry⟩

end Grammar
end ProgramSearch
