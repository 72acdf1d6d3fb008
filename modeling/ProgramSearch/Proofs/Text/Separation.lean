namespace ProgramSearch

/-!
# Where a written thing ends

Things written one behind the other can be read back when each of them shows where it ends,
at least in front of what may follow it.  A row of such things shows where it ends in front of
whatever cannot be the beginning of another one.  The symbols may be characters, or the lines
of a text.
-/

universe u v

variable {X : Type u} {α : Type v}

/-- In front of what may follow, the writing of one thing is told from that of any other
thing, and the thing from what follows it. -/
def StandsOut (among : X → Prop) (follows : List α → Prop) (write : X → List α) (thing : X) :
    Prop :=
  ∀ ⦃other : X⦄ ⦃rest rest' : List α⦄, among other → follows rest → follows rest' →
    write thing ++ rest = write other ++ rest' → thing = other ∧ rest = rest'

/-- What follows begins with none of the given symbols. -/
def BeginsOutside (inside : α → Prop) (rest : List α) : Prop :=
  ∀ first ∈ rest.head?, ¬ inside first

theorem beginsOutside_nil (inside : α → Prop) : BeginsOutside inside [] := by
  rintro first begins
  cases begins

section Row

variable {among : X → Prop} {follows ends : List α → Prop} {write : X → List α}

/-- A row and its end may follow a member when each member may and the end may. -/
theorem follows_flatMap (closed : ∀ rest, ends rest → follows rest)
    (continued : ∀ thing, among thing → ∀ rest, follows (write thing ++ rest)) {row : List X}
    (members : ∀ thing ∈ row, among thing) {rest : List α} (last : ends rest) :
    follows (row.flatMap write ++ rest) := by
  cases row with
  | nil => exact closed rest last
  | cons thing row =>
      rw [List.flatMap_cons, List.append_assoc]
      exact continued thing (members thing List.mem_cons_self) _

/-- A row stands out when each of its members does in front of the others and the end of the row
is not taken for another member. -/
theorem standsOut_flatMap (closed : ∀ rest, ends rest → follows rest)
    (continued : ∀ thing, among thing → ∀ rest, follows (write thing ++ rest))
    (ended : ∀ thing, among thing → ∀ rest, ¬ ends (write thing ++ rest)) {row : List X}
    (members : ∀ thing ∈ row, among thing)
    (each : ∀ thing ∈ row, StandsOut among follows write thing) :
    StandsOut (fun other : List X => ∀ thing ∈ other, among thing) ends (List.flatMap write)
      row := by
  induction row with
  | nil =>
      intro other rest rest' members' last last' same
      cases other with
      | nil => exact ⟨rfl, same⟩
      | cons thing' other =>
          rw [List.flatMap_nil, List.nil_append, List.flatMap_cons, List.append_assoc] at same
          exact absurd (same ▸ last) (ended thing' (members' thing' List.mem_cons_self) _)
  | cons thing row ih =>
      intro other rest rest' members' last last' same
      cases other with
      | nil =>
          rw [List.flatMap_nil, List.nil_append, List.flatMap_cons, List.append_assoc] at same
          exact absurd (same ▸ last') (ended thing (members thing List.mem_cons_self) _)
      | cons thing' other =>
          rcases List.forall_mem_cons.mp members with ⟨first, others⟩
          rcases List.forall_mem_cons.mp members' with ⟨first', others'⟩
          rcases List.forall_mem_cons.mp each with ⟨stands, stand⟩
          rw [List.flatMap_cons, List.flatMap_cons, List.append_assoc, List.append_assoc] at same
          rcases stands first' (follows_flatMap closed continued others last)
            (follows_flatMap closed continued others' last') same with ⟨rfl, behind⟩
          rcases ih others stand others' last last' behind with ⟨rfl, rest_same⟩
          exact ⟨rfl, rest_same⟩

end Row

/-- A run of symbols of one kind ends in front of a symbol of another kind. -/
theorem append_inj_of_beginsOutside {inside : α → Prop} {run run' rest rest' : List α}
    (within : ∀ symbol ∈ run, inside symbol) (within' : ∀ symbol ∈ run', inside symbol)
    (outside : BeginsOutside inside rest) (outside' : BeginsOutside inside rest')
    (same : run ++ rest = run' ++ rest') : run = run' ∧ rest = rest' := by
  induction run generalizing run' with
  | nil =>
      cases run' with
      | nil => exact ⟨rfl, same⟩
      | cons first run' =>
          rw [List.nil_append, List.cons_append] at same
          exact absurd (within' first List.mem_cons_self) (outside first (by rw [same]; rfl))
  | cons first run ih =>
      cases run' with
      | nil =>
          rw [List.nil_append, List.cons_append] at same
          exact absurd (within first List.mem_cons_self) (outside' first (by rw [← same]; rfl))
      | cons first' run' =>
          rcases List.cons.inj same with ⟨rfl, behind⟩
          rcases ih (fun symbol member => within symbol (List.mem_cons_of_mem _ member))
            (fun symbol member => within' symbol (List.mem_cons_of_mem _ member)) behind with
            ⟨rfl, rest_same⟩
          exact ⟨rfl, rest_same⟩

end ProgramSearch
