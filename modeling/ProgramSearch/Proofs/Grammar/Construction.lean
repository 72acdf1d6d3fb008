import Mathlib.Data.List.Induction
import ProgramSearch.Grammar.History

namespace ProgramSearch
namespace Grammar

/-!
# What each step of a construction adds

Minting a symbol changes no alternatives, and adding a rule changes those of its head alone.
The heads of a grammar under construction are therefore the symbols that have alternatives.
-/

theorem alternatives_create (identity : Nat) (startName : String) (symbol : Symbol) :
    (create identity startName).alternatives symbol = [] := by
  unfold alternatives
  cases found : (create identity startName).entryOf? symbol with
  | none => rfl
  | some entry =>
      rw [entryOf?] at found
      split at found
      · have only : entry = ⟨startName, true, []⟩ :=
          Array.mem_singleton.mp (Array.mem_of_getElem? found)
        rw [only]
      · cases found

theorem entryOf?_mint (grammar : Grammar) (name : String) (symbol : Symbol) :
    (grammar.mint name).2.entryOf? symbol =
      if symbol = (grammar.mint name).1 then some ⟨name, false, []⟩
      else grammar.entryOf? symbol := by
  rcases symbol with ⟨owner, position⟩
  simp only [mint, entryOf?, Symbol.mk.injEq, Array.getElem?_push]
  by_cases own : owner = grammar.identity <;> by_cases last : position = grammar.table.size <;>
    simp [own, last]

theorem alternatives_mint (grammar : Grammar) (name : String) (symbol : Symbol) :
    (grammar.mint name).2.alternatives symbol = grammar.alternatives symbol := by
  unfold alternatives
  rw [entryOf?_mint]
  by_cases new : symbol = (grammar.mint name).1
  · have unknown := grammar.owns_mint_eq_false name
    rw [owns, Option.isSome_eq_false_iff, Option.isNone_iff_eq_none, ← new] at unknown
    rw [if_pos new, unknown]
  · rw [if_neg new]

@[simp] theorem heads_updateEntry (grammar : Grammar) (symbol : Symbol)
    (change : Entry → Entry) : (grammar.updateEntry symbol change).heads = grammar.heads := by
  unfold updateEntry
  split <;> rfl

theorem owns_updateEntry (grammar : Grammar) (changed symbol : Symbol)
    (change : Entry → Entry) :
    (grammar.updateEntry changed change).owns symbol = grammar.owns symbol := by
  rw [owns, owns, entryOf?_updateEntry]
  split
  · rw [Option.isSome_map]
  · rfl

/-- An own symbol's alternatives after a change of its entry. -/
theorem alternatives_updateEntry (grammar : Grammar) (changed symbol : Symbol)
    (change : Entry → Entry) (more : List (List Symbol))
    (adds : ∀ entry, (change entry).alternatives = entry.alternatives ++ more) :
    (grammar.updateEntry changed change).alternatives symbol =
      if symbol = changed ∧ grammar.owns changed = true then
        grammar.alternatives symbol ++ more
      else grammar.alternatives symbol := by
  unfold alternatives
  rw [entryOf?_updateEntry]
  by_cases here : symbol = changed
  · subst here
    rw [if_pos rfl, owns]
    cases grammar.entryOf? symbol with
    | none => simp
    | some entry => simp [adds]
  · rw [if_neg here, if_neg fun both => here both.1]

/-- Mentioning symbols leaves the heads, the own symbols and all alternatives. -/
theorem mention_foldl (grammar : Grammar) (mentioned : List Symbol) :
    (mentioned.foldl mention grammar).heads = grammar.heads ∧
      ∀ symbol, (mentioned.foldl mention grammar).owns symbol = grammar.owns symbol ∧
        (mentioned.foldl mention grammar).alternatives symbol = grammar.alternatives symbol := by
  induction mentioned generalizing grammar with
  | nil => exact ⟨rfl, fun symbol => ⟨rfl, rfl⟩⟩
  | cons first mentioned ih =>
      rcases ih (grammar.mention first) with ⟨heads, others⟩
      refine ⟨heads.trans (heads_updateEntry _ _ _), fun symbol => ⟨?_, ?_⟩⟩
      · exact (others symbol).1.trans (owns_updateEntry _ _ _ _)
      · have kept := grammar.alternatives_updateEntry first symbol
          (fun entry => { entry with mentioned := true }) [] fun entry => by simp
        rw [List.append_nil, ite_self] at kept
        exact (others symbol).2.trans kept

/-- A rule with an own head adds an alternative to it, and any other rule adds none. -/
theorem alternatives_addRule (grammar : Grammar) (head : Symbol) (body : List Symbol)
    (symbol : Symbol) :
    (grammar.addRule head body).alternatives symbol =
      if symbol = head ∧ grammar.owns head = true then grammar.alternatives symbol ++ [body]
      else grammar.alternatives symbol := by
  have marked := (grammar.mention_foldl (head :: body)).2
  have extended := alternatives_updateEntry ((head :: body).foldl mention grammar) head symbol
    (fun entry => { entry with alternatives := entry.alternatives ++ [body] }) [body]
    fun entry => rfl
  rw [(marked head).1, (marked symbol).2] at extended
  unfold addRule
  by_cases own : grammar.owns head = true
  · rw [if_pos own, ← extended]
    split <;> rfl
  · rw [if_neg own, if_neg fun both => own both.2]
    exact (marked symbol).2

/-- A rule with an own head that has none yet adds it to the heads. -/
theorem mem_heads_addRule (grammar : Grammar) (head : Symbol) (body : List Symbol)
    (symbol : Symbol) :
    symbol ∈ (grammar.addRule head body).heads ↔
      symbol ∈ grammar.heads ∨ symbol = head ∧ grammar.owns head = true := by
  have marked := (grammar.mention_foldl (head :: body)).1
  unfold addRule
  by_cases own : grammar.owns head = true
  · by_cases known : head ∈ grammar.heads
    · rw [if_pos own, if_pos known, heads_updateEntry, marked]
      constructor
      · exact Or.inl
      · rintro (member | ⟨rfl, _⟩)
        · exact member
        · exact known
    · rw [if_pos own, if_neg known]
      simp [own]
  · rw [if_neg own]
    change symbol ∈ ((head :: body).foldl mention grammar).heads ↔ _
    rw [marked]
    simp [own]

/-- The heads of a grammar are the symbols with alternatives, whatever was minted and added
in whatever order. -/
theorem mem_heads_build (identity : Nat) (startName : String) (steps : List GrammarStep)
    (symbol : Symbol) :
    symbol ∈ (build identity startName steps).heads ↔
      (build identity startName steps).alternatives symbol ≠ [] := by
  induction steps using List.reverseRecOn with
  | nil =>
      rw [build_nil, alternatives_create]
      simp [create]
  | append_singleton steps step ih =>
      rw [build_append_singleton]
      cases step with
      | symbol name =>
          rw [extend, alternatives_mint]
          exact ih
      | rule head body =>
          rw [extend, mem_heads_addRule, alternatives_addRule, ih]
          split
          · rename_i added
            simp [added]
          · rename_i kept
            simp [kept]

end Grammar
end ProgramSearch
