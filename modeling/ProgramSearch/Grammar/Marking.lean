import ProgramSearch.Grammar.Basic

namespace ProgramSearch
namespace Grammar

/-!
# Marking the productive symbols

A table holds one mark for each symbol of a grammar.  At first the terminals are marked.  A pass
visits the heads in order and marks those with an alternative of marked symbols, at least one of
them; a mark set for one head counts at once for the heads visited after it.  Passes are
repeated until one of them sets no mark.

A mark is looked up by the position of a symbol.  Looking one up outside the table ends the
marking without a result.  Every pass that is followed by another has set a mark, so that the
number of marks not set bounds the number of passes still to come.
-/

/-- The marks before the first pass, in minting order. -/
def terminalMarks (grammar : Grammar) : List Bool :=
  grammar.minted.map grammar.isTerminal

/-- Whether all symbols of an alternative are marked and there is at least one.  The marks are
looked up from the left, as far as they are set. -/
def completes? (marks : List Bool) (body : List Symbol) : Option Bool :=
  if body.isEmpty then some false
  else body.allM fun symbol => marks[symbol.position]?

/-- Visit one head during a pass.  Besides the marks a pass remembers whether it has set one. -/
def visit? (grammar : Grammar) (state : Bool × List Bool) (head : Symbol) :
    Option (Bool × List Bool) :=
  match state.2[head.position]? with
  | none => none
  | some true => some state
  | some false =>
      match (grammar.alternatives head).anyM (completes? state.2) with
      | none => none
      | some false => some state
      | some true => some (true, state.2.set head.position true)

/-- Visit all heads in order. -/
def pass? (grammar : Grammar) (marks : List Bool) : Option (Bool × List Bool) :=
  grammar.heads.foldlM grammar.visit? (false, marks)

/-- A visit changes nothing, or it sets a mark that was not set. -/
theorem visit?_cases {grammar : Grammar} {state later : Bool × List Bool} {head : Symbol}
    (visited : grammar.visit? state head = some later) :
    later = state ∨ state.2[head.position]? = some false ∧
      later = (true, state.2.set head.position true) := by
  unfold visit? at visited
  split at visited
  · cases visited
  · cases visited
    exact Or.inl rfl
  · rename_i unmarked
    split at visited
    · cases visited
    · cases visited
      exact Or.inl rfl
    · cases visited
      exact Or.inr ⟨unmarked, rfl⟩

/-- Setting a mark leaves fewer that are not set. -/
theorem count_false_set_lt {marks : List Bool} {position : Nat}
    (unmarked : marks[position]? = some false) :
    (marks.set position true).count false < marks.count false := by
  rcases List.getElem?_eq_some_iff.mp unmarked with ⟨within, mark⟩
  have some : 0 < marks.count false := by
    rw [List.count_pos_iff, ← mark]
    exact List.getElem_mem within
  have one_less : (marks.set position true).count false = marks.count false - 1 := by
    rw [List.count_set within, mark]
    rfl
  omega

/-- Visits never leave more marks that are not set, and fewer if they have set one. -/
theorem count_false_visits {grammar : Grammar} {heads : List Symbol}
    {state later : Bool × List Bool}
    (visited : heads.foldlM grammar.visit? state = some later) :
    later.2.count false ≤ state.2.count false ∧
      (state.1 = false → later.1 = true → later.2.count false < state.2.count false) := by
  induction heads generalizing state with
  | nil =>
      cases visited
      exact ⟨Nat.le_refl _, fun idle changed => by rw [idle] at changed; cases changed⟩
  | cons head heads ih =>
      rw [List.foldlM_cons, Option.bind_eq_bind, Option.bind_eq_some_iff] at visited
      rcases visited with ⟨next, first, others⟩
      rcases ih others with ⟨le, less⟩
      rcases visit?_cases first with rfl | ⟨unmarked, rfl⟩
      · exact ⟨le, less⟩
      · have set := count_false_set_lt unmarked
        exact ⟨Nat.le_trans le (Nat.le_of_lt set), fun _ _ => Nat.lt_of_le_of_lt le set⟩

-- Unfolded by evaluation, so that a given grammar can be shown valid by computing.
/-- The marks once a pass has set none, from the given ones on. -/
@[semireducible] def markFrom? (grammar : Grammar) (marks : List Bool) : Option (List Bool) :=
  match _ : grammar.pass? marks with
  | none => none
  | some (false, final) => some final
  | some (true, later) => grammar.markFrom? later
termination_by marks.count false
decreasing_by exact (count_false_visits ‹_›).2 rfl rfl

/-- The marks of all productive symbols. -/
def productiveMarks? (grammar : Grammar) : Option (List Bool) :=
  grammar.markFrom? grammar.terminalMarks

/-- Whether a symbol is marked in the end. -/
def isProductive (grammar : Grammar) (symbol : Symbol) : Bool :=
  match grammar.productiveMarks? with
  | none => false
  | some marks => marks[symbol.position]? = some true

end Grammar
end ProgramSearch
