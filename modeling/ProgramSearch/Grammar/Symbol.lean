namespace ProgramSearch

/-!
# Grammar symbols

A symbol is a handle: the identity of the grammar that minted it and its
position among the symbols minted there.  Its name is no part of it, so two
symbols of one name are still two symbols, and what a symbol means is a question
to a grammar.
-/

/-- A handle to one entry of a grammar's symbol table. -/
structure Symbol where
  owner : Nat
  position : Nat
deriving DecidableEq

namespace Symbol

/-- Symbols are ordered by their grammar first and by position within it. -/
def compare (left right : Symbol) : Ordering :=
  (Ord.compare left.owner right.owner).then (Ord.compare left.position right.position)

theorem compare_eq_iff (left right : Symbol) :
    left.compare right = .eq ↔ left = right := by
  rcases left with ⟨leftOwner, leftPosition⟩
  rcases right with ⟨rightOwner, rightPosition⟩
  simp [compare, Ordering.then_eq_eq]

end Symbol

end ProgramSearch
