import ProgramSearch.Proofs.Grammar.Productive
import ProgramSearch.Proofs.Grammar.ReadBack

namespace ProgramSearch
namespace Grammar

/-!
# The marks of a grammar are those of its productive symbols

Marks are set in place, so that what a pass finds depends on the order of the heads.  The marks
at rest do not.  No visit marks a symbol that is not productive, and once a pass has set no mark,
every head with an alternative of marked symbols is marked itself.

In a grammar without foreign symbols no lookup leaves the table, and as every pass but the last
sets a mark, there is at most one pass more than there are marks to set.
-/

/-- All heads, and all symbols in their alternatives, have an entry in the grammar's table. -/
structure Native (grammar : Grammar) : Prop where
  heads : ∀ head ∈ grammar.heads, grammar.owns head = true
  bodies : ∀ head ∈ grammar.heads, ∀ body ∈ grammar.alternatives head, ∀ symbol ∈ body,
    grammar.owns symbol = true

/-- The mark of the symbol is set. -/
def Marked (marks : List Bool) (symbol : Symbol) : Prop :=
  marks[symbol.position]? = some true

instance (marks : List Bool) (symbol : Symbol) : Decidable (Marked marks symbol) :=
  inferInstanceAs (Decidable (marks[symbol.position]? = some true))

/-- A body that leads on to marked symbols only, and to at least one. -/
def Leads (marks : List Bool) (body : List Symbol) : Prop :=
  body ≠ [] ∧ ∀ symbol ∈ body, Marked marks symbol

instance (marks : List Bool) (body : List Symbol) : Decidable (Leads marks body) :=
  inferInstanceAs (Decidable (body ≠ [] ∧ ∀ symbol ∈ body, Marked marks symbol))

/-- Marks on the way from the terminals to the productive symbols. -/
structure Truthful (grammar : Grammar) (marks : List Bool) : Prop where
  size : marks.length = grammar.table.size
  terminal : ∀ symbol, grammar.owns symbol = true → grammar.isTerminal symbol = true →
    Marked marks symbol
  settled : ∀ symbol, grammar.owns symbol = true → Marked marks symbol →
    grammar.settled grammar.productiveHeads symbol = true

/-- Marks to which no head can be added. -/
def Resting (grammar : Grammar) (marks : List Bool) : Prop :=
  ∀ head ∈ grammar.heads, (∃ body ∈ grammar.alternatives head, Leads marks body) →
    Marked marks head

/-- The marks that a number of passes lead to, when each but the last has set one. -/
inductive Passes (grammar : Grammar) : Nat → List Bool → List Bool → Prop where
  | last {marks final : List Bool} (idle : grammar.pass? marks = some (false, final)) :
      Passes grammar 1 marks final
  | again {passes : Nat} {marks later final : List Bool}
      (changed : grammar.pass? marks = some (true, later))
      (rest : Passes grammar passes later final) : Passes grammar (passes + 1) marks final

variable {grammar : Grammar}

/-! ## Lookups stay in the table -/

/-- Checks that all have an answer have one answer together. -/
theorem allM_eq_some {X : Type*} {check : X → Option Bool} {holds : X → Prop}
    [DecidablePred holds] {xs : List X}
    (answers : ∀ x ∈ xs, check x = some (decide (holds x))) :
    xs.allM check = some (decide (∀ x ∈ xs, holds x)) := by
  induction xs with
  | nil => simp
  | cons x xs ih =>
      rw [List.forall_mem_cons] at answers
      rw [List.allM, answers.1]
      by_cases here : holds x <;> simp [here, ih answers.2]

theorem anyM_eq_some {X : Type*} {check : X → Option Bool} {holds : X → Prop}
    [DecidablePred holds] {xs : List X}
    (answers : ∀ x ∈ xs, check x = some (decide (holds x))) :
    xs.anyM check = some (decide (∃ x ∈ xs, holds x)) := by
  induction xs with
  | nil => simp
  | cons x xs ih =>
      rw [List.forall_mem_cons] at answers
      rw [List.anyM, answers.1]
      by_cases here : holds x <;> simp [here, ih answers.2]

theorem position_lt_of_owns {symbol : Symbol} (own : grammar.owns symbol = true) :
    symbol.position < grammar.table.size := by
  rw [owns_iff_mem_minted, minted, List.mem_map] at own
  rcases own with ⟨position, within, rfl⟩
  exact List.mem_range.mp within

section Table

variable {marks : List Bool} (size : marks.length = grammar.table.size)
include size

theorem getElem?_marks {symbol : Symbol} (own : grammar.owns symbol = true) :
    marks[symbol.position]? = some (decide (Marked marks symbol)) := by
  have within : symbol.position < marks.length := by
    rw [size]
    exact position_lt_of_owns own
  rw [List.getElem?_eq_getElem within]
  simp [Marked, List.getElem?_eq_getElem within]

theorem completes?_eq {body : List Symbol}
    (own : ∀ symbol ∈ body, grammar.owns symbol = true) :
    completes? marks body = some (decide (Leads marks body)) := by
  unfold completes?
  rw [allM_eq_some fun symbol member => getElem?_marks size (own symbol member)]
  cases body <;> simp [Leads]

/-- A visit marks a head that has an alternative of marked symbols and is not marked yet. -/
theorem visit?_eq (native : grammar.Native) {head : Symbol} (member : head ∈ grammar.heads)
    (changed : Bool) :
    grammar.visit? (changed, marks) head = some
      (if ¬ Marked marks head ∧ ∃ body ∈ grammar.alternatives head, Leads marks body then
        (true, marks.set head.position true)
      else (changed, marks)) := by
  have lookups : (grammar.alternatives head).anyM (completes? marks) =
      some (decide (∃ body ∈ grammar.alternatives head, Leads marks body)) :=
    anyM_eq_some fun body alternative =>
      completes?_eq size (native.bodies head member body alternative)
  unfold visit?
  rw [getElem?_marks size (native.heads head member), lookups]
  by_cases marked : Marked marks head
  · simp [marked]
  · by_cases ready : ∃ body ∈ grammar.alternatives head, Leads marks body <;>
      simp [marked, ready]

end Table

/-! ## What a visit, a pass and all passes preserve -/

theorem truthful_terminalMarks (grammar : Grammar) : grammar.Truthful grammar.terminalMarks := by
  have mark : ∀ symbol, grammar.owns symbol = true →
      (Marked grammar.terminalMarks symbol ↔ grammar.isTerminal symbol = true) := by
    intro symbol own
    have within := position_lt_of_owns own
    have named : Symbol.mk grammar.identity symbol.position = symbol := by
      rw [← owner_of_owns own]
    simp [Marked, terminalMarks, minted, within, named]
  refine ⟨by simp [terminalMarks, minted], fun symbol own => (mark symbol own).mpr, ?_⟩
  intro symbol own marked
  rw [settled, (mark symbol own).mp marked, Bool.true_or]

/-- Setting the mark of a head that leads on to marked symbols keeps the marks truthful. -/
theorem Truthful.set {marks : List Bool} (truthful : grammar.Truthful marks) {head : Symbol}
    (member : head ∈ grammar.heads) (own : grammar.owns head = true)
    (native : ∀ body ∈ grammar.alternatives head, ∀ symbol ∈ body, grammar.owns symbol = true)
    (ready : ∃ body ∈ grammar.alternatives head, Leads marks body) :
    grammar.Truthful (marks.set head.position true) where
  size := by rw [List.length_set, truthful.size]
  terminal := by
    intro symbol owned terminal
    have marked := truthful.terminal symbol owned terminal
    rw [Marked, List.getElem?_set]
    split
    · simp [truthful.size, position_lt_of_owns own]
    · exact marked
  settled := by
    intro symbol owned marked
    rw [Marked, List.getElem?_set] at marked
    split at marked
    · rename_i same
      have here : symbol = head := by
        rcases symbol with ⟨owner, position⟩
        rcases head with ⟨headOwner, headPosition⟩
        cases same
        rw [Symbol.mk.injEq]
        exact ⟨(owner_of_owns owned).trans (owner_of_owns own).symm, rfl⟩
      subst here
      rcases ready with ⟨body, alternative, inner, leads⟩
      have found : symbol ∈ grammar.productiveRound grammar.productiveHeads := by
        refine mem_productiveRound.mpr ⟨member, body, alternative, inner, ?_⟩
        intro other inside
        exact truthful.settled other (native body alternative other inside) (leads other inside)
      rw [productiveRound_productiveHeads] at found
      rw [Grammar.settled, Bool.or_eq_true, List.contains_iff_mem]
      exact Or.inr found
    · exact truthful.settled symbol owned marked

/-- Visits look up no symbol outside the table and keep truthful marks truthful; if they set
no mark, there was none to set. -/
theorem exists_visits (native : grammar.Native) {heads : List Symbol}
    (among : ∀ head ∈ heads, head ∈ grammar.heads) (changed : Bool) {marks : List Bool}
    (truthful : grammar.Truthful marks) :
    ∃ laterChanged later,
      heads.foldlM grammar.visit? (changed, marks) = some (laterChanged, later) ∧
      grammar.Truthful later ∧
      (laterChanged = false → changed = false ∧ later = marks ∧ ∀ head ∈ heads,
        (∃ body ∈ grammar.alternatives head, Leads marks body) → Marked marks head) := by
  induction heads generalizing changed marks with
  | nil =>
      exact ⟨changed, marks, rfl, truthful, fun idle => ⟨idle, rfl, by simp⟩⟩
  | cons head heads ih =>
      rw [List.forall_mem_cons] at among
      rcases among with ⟨member, among⟩
      rw [List.foldlM_cons, visit?_eq truthful.size native member, Option.bind_eq_bind,
        Option.bind_some]
      split
      · rename_i unmarked
        have set := truthful.set member (native.heads head member)
          (native.bodies head member) unmarked.2
        rcases ih among true set with ⟨laterChanged, later, visited, truthful, rest⟩
        refine ⟨laterChanged, later, visited, truthful, fun idle => ?_⟩
        -- That a mark was set is remembered by the visits that follow.
        cases (rest idle).1
      · rename_i settled
        rcases ih among changed truthful with ⟨laterChanged, later, visited, kept, rest⟩
        refine ⟨laterChanged, later, visited, kept, fun idle => ?_⟩
        rcases rest idle with ⟨unchanged, same, others⟩
        refine ⟨unchanged, same, List.forall_mem_cons.mpr ⟨fun ready => ?_, others⟩⟩
        by_contra unmarked
        exact settled ⟨unmarked, ready⟩

/-- One pass, and what is done after it. -/
theorem markFrom?_eq (grammar : Grammar) (marks : List Bool) :
    grammar.markFrom? marks =
      match grammar.pass? marks with
      | none => none
      | some (false, final) => some final
      | some (true, later) => grammar.markFrom? later := by
  rw [markFrom?]
  split <;> simp [*]

/-- The marking comes to rest after at most one pass more than there are marks to set. -/
theorem exists_markFrom? (native : grammar.Native) {marks : List Bool}
    (truthful : grammar.Truthful marks) :
    ∃ passes final, passes ≤ marks.count false + 1 ∧ grammar.Passes passes marks final ∧
      grammar.markFrom? marks = some final ∧ grammar.Truthful final ∧ grammar.Resting final := by
  rcases exists_visits native (fun head member => member) false truthful with
    ⟨changed, later, visited, kept, idle⟩
  have passed : grammar.pass? marks = some (changed, later) := visited
  cases changed with
  | false =>
      rcases idle rfl with ⟨_, rfl, resting⟩
      refine ⟨1, later, Nat.le_add_left _ _, .last passed, ?_, truthful, resting⟩
      rw [markFrom?_eq, passed]
  | true =>
      -- The recursion of the proof is that of the marking: fewer marks are left to set.
      have fewer : later.count false < marks.count false :=
        (count_false_visits visited).2 rfl rfl
      rcases exists_markFrom? native kept with
        ⟨passes, final, within, leads, final_eq, truthful, resting⟩
      refine ⟨passes + 1, final, by omega, .again passed leads, ?_, truthful, resting⟩
      rw [markFrom?_eq, passed]
      exact final_eq
termination_by marks.count false

/-- Marks at rest are set for all productive symbols.  The induction is on the round in which a
head is found, since the marks may have been set in any order. -/
theorem marked_of_settled (native : grammar.Native) {marks : List Bool}
    (truthful : grammar.Truthful marks) (resting : grammar.Resting marks) {rounds : Nat}
    {symbol : Symbol} (own : grammar.owns symbol = true)
    (settled : grammar.settled (grammar.productiveWithin rounds) symbol = true) :
    Marked marks symbol := by
  induction rounds generalizing symbol with
  | zero =>
      rw [Grammar.settled, productiveWithin, List.contains_nil, Bool.or_false] at settled
      exact truthful.terminal symbol own settled
  | succ rounds ih =>
      rw [Grammar.settled, Bool.or_eq_true, List.contains_iff_mem] at settled
      rcases settled with terminal | found
      · exact truthful.terminal symbol own terminal
      · rcases mem_productiveRound.mp found with ⟨head, body, alternative, inner, each⟩
        refine resting symbol head ⟨body, alternative, inner, fun other inside => ?_⟩
        exact ih (native.bodies symbol head body alternative other inside) (each other inside)

/-- The marks that the table holds in the end, with the passes that lead to them. -/
theorem exists_productiveMarks? (native : grammar.Native) :
    ∃ passes marks, passes ≤ grammar.terminalMarks.count false + 1 ∧
      grammar.Passes passes grammar.terminalMarks marks ∧
      grammar.productiveMarks? = some marks ∧ marks.length = grammar.table.size ∧
      ∀ symbol, grammar.owns symbol = true →
        (Marked marks symbol ↔ grammar.settled grammar.productiveHeads symbol = true) := by
  rcases exists_markFrom? native (truthful_terminalMarks grammar) with
    ⟨passes, marks, within, leads, final, truthful, resting⟩
  refine ⟨passes, marks, within, leads, final, truthful.size, fun symbol own => ?_⟩
  exact ⟨truthful.settled symbol own, marked_of_settled native truthful resting own⟩

/-- A symbol of the grammar is productive exactly when it is settled. -/
theorem isProductive_iff (native : grammar.Native) {symbol : Symbol}
    (own : grammar.owns symbol = true) :
    grammar.isProductive symbol = true ↔
      grammar.settled grammar.productiveHeads symbol = true := by
  rcases exists_productiveMarks? native with ⟨_, marks, _, _, final, _, marked⟩
  rw [isProductive, final, decide_eq_true_iff]
  exact marked symbol own

/-! ## What validation decides -/

theorem owns_of_alternatives_ne_nil {symbol : Symbol}
    (some : grammar.alternatives symbol ≠ []) : grammar.owns symbol = true := by
  rw [alternatives] at some
  rw [owns]
  cases found : grammar.entryOf? symbol with
  | none => simp [found] at some
  | some entry => rfl

/-- A grammar under construction has an entry for each of its heads. -/
theorem owns_of_mem_heads_build {identity : Nat} {startName : String} {steps : List GrammarStep} :
    ∀ head ∈ (build identity startName steps).heads,
      (build identity startName steps).owns head = true :=
  fun head member => owns_of_alternatives_ne_nil ((mem_heads_build _ _ _ head).mp member)

theorem native_of_find?_eq_none (headed : ∀ head ∈ grammar.heads, grammar.owns head = true)
    (none : grammar.heads.find? grammar.mentionsForeign = none) : grammar.Native where
  heads := headed
  bodies := by
    intro head member body alternative symbol inside
    by_contra foreign
    apply List.find?_eq_none.mp none head member
    refine List.any_eq_true.mpr ⟨body, alternative, List.any_eq_true.mpr ⟨symbol, inside, ?_⟩⟩
    rw [Bool.not_eq_true', ← Bool.not_eq_true]
    exact foreign

/-- A foreign symbol in an alternative is reported under the first head that has one. -/
theorem validate_of_find?_eq_some (kept : grammar.foreignHead = false) {head : Symbol}
    (first : grammar.heads.find? grammar.mentionsForeign = some head) :
    grammar.validate = .error (.foreignSymbol (grammar.name head)) := by
  simp [validate, kept, first]

/-- Without foreign symbols validation decides on the start symbol. -/
theorem validate_of_find?_eq_none (kept : grammar.foreignHead = false)
    (none : grammar.heads.find? grammar.mentionsForeign = none) :
    grammar.validate =
      if (grammar.alternatives grammar.start).isEmpty then
        .error (.noProductions (grammar.name grammar.start))
      else if grammar.isProductive grammar.start then .ok ()
      else .error (.unproductive (grammar.name grammar.start)) := by
  simp [validate, kept, none]

theorem isTerminal_start (grammar : Grammar) : grammar.isTerminal grammar.start = false := by
  simp [isTerminal]

/-- A symbol that is settled, and no terminal, has an alternative. -/
theorem alternatives_start_ne_nil_of_settled
    (settled : grammar.settled grammar.productiveHeads grammar.start = true) :
    grammar.alternatives grammar.start ≠ [] := by
  rw [Grammar.settled, isTerminal_start, Bool.false_or, List.contains_iff_mem,
    ← productiveRound_productiveHeads, mem_productiveRound] at settled
  rcases settled with ⟨_, body, alternative, _⟩
  exact List.ne_nil_of_mem alternative

/-- A grammar without foreign symbols is valid when its start symbol is settled. -/
theorem validate_eq_ok_iff (headed : ∀ head ∈ grammar.heads, grammar.owns head = true)
    (own : ∀ name, grammar.validate ≠ .error (.foreignSymbol name)) :
    grammar.validate = .ok () ↔
      grammar.settled grammar.productiveHeads grammar.start = true := by
  cases kept : grammar.foreignHead with
  | true => exact absurd (validate_of_foreignHead kept) (own _)
  | false =>
      cases first : grammar.heads.find? grammar.mentionsForeign with
      | some head => exact absurd (validate_of_find?_eq_some kept first) (own _)
      | none =>
          rw [validate_of_find?_eq_none kept first]
          by_cases bare : grammar.alternatives grammar.start = []
          · rw [if_pos (List.isEmpty_iff.mpr bare)]
            refine iff_of_false (by simp) fun settled => ?_
            exact alternatives_start_ne_nil_of_settled settled bare
          · rw [if_neg (by rwa [List.isEmpty_iff]),
              ← isProductive_iff (native_of_find?_eq_none headed first)
                (owns_of_alternatives_ne_nil bare)]
            split <;> simp [*]

end Grammar
end ProgramSearch
