import ProgramSearch.Grammar.Text
import ProgramSearch.Grammar.Validity

namespace ProgramSearch
namespace Grammar

/-!
# Questions that may break off

Identities alone tell the symbols of a grammar from those of others.  A symbol under the
grammar's identity is looked up at its position, and past the end of the table there is nothing
to find: the symbol was minted by the original or by a copy after the two had parted.  The
lookup then breaks off whatever has asked for it, without a value and without an error.

Each question is answered as the total one of the same name whenever the grammar admits the
symbols that it looks up.
-/

/-- Read the entry of a symbol, or answer as for all symbols of other grammars. -/
def lookup? {α : Type} (grammar : Grammar) (symbol : Symbol) (abroad : α) (read : Entry → α) :
    Option α :=
  if symbol.owner = grammar.identity then grammar.table[symbol.position]?.map read
  else some abroad

def alternatives? (grammar : Grammar) (symbol : Symbol) : Option (List (List Symbol)) :=
  grammar.lookup? symbol [] Entry.alternatives

def name? (grammar : Grammar) (symbol : Symbol) : Option String :=
  grammar.lookup? symbol foreignName Entry.name

/-- The start symbol is known to be no terminal without a lookup. -/
def isTerminal? (grammar : Grammar) (symbol : Symbol) : Option Bool :=
  if symbol = grammar.start then some false
  else (grammar.alternatives? symbol).map List.isEmpty

def isNonterminal? (grammar : Grammar) (symbol : Symbol) : Option Bool :=
  (grammar.isTerminal? symbol).map (!·)

/-- Append a rule.  A body is recorded as it is, whatever symbols it holds, but the head has to
be found in the table. -/
def addRule? (grammar : Grammar) (head : Symbol) (body : List Symbol) : Option Grammar :=
  if grammar.Admits head then some (grammar.addRule head body) else none

/-- Whether some alternative of the head mentions a symbol under another identity. -/
def mentionsAbroad (grammar : Grammar) (head : Symbol) : Bool :=
  (grammar.alternatives head).any fun body =>
    body.any fun symbol => symbol.owner ≠ grammar.identity

/-- Foreign symbols are looked for by their identities, so that a symbol past the table is met
only when its mark is looked up. -/
def validate? (grammar : Grammar) : Option (Except GrammarError Unit) :=
  if grammar.foreignHead then
    some (.error (.foreignSymbol foreignName))
  else
    match grammar.heads.find? grammar.mentionsAbroad with
    | some head => some (.error (.foreignSymbol (grammar.name head)))
    | none =>
        if (grammar.alternatives grammar.start).isEmpty then
          some (.error (.noProductions (grammar.name grammar.start)))
        else
          grammar.productiveMarks?.map fun marks =>
            if marks[grammar.start.position]? = some true then .ok ()
            else .error (.unproductive (grammar.name grammar.start))

/-- Printing writes the label of every symbol in a rule. -/
def text? (grammar : Grammar) : Option String :=
  if ∀ head ∈ grammar.heads, ∀ body ∈ grammar.alternatives head, ∀ symbol ∈ head :: body,
      (grammar.name? symbol).isSome then
    some grammar.text
  else none

section Admits

variable {grammar : Grammar} {symbol : Symbol}

/-- A lookup breaks off exactly for the symbols that the grammar does not admit. -/
theorem lookup?_eq {α : Type} (abroad : α) (read : Entry → α) :
    grammar.lookup? symbol abroad read =
      if grammar.Admits symbol then some ((grammar.entryOf? symbol).elim abroad read)
      else none := by
  by_cases own : symbol.owner = grammar.identity
  · have entry : grammar.entryOf? symbol = grammar.table[symbol.position]? := if_pos own
    rw [lookup?, if_pos own, ← entry]
    cases found : grammar.entryOf? symbol <;> simp [Admits, own, owns, found]
  · have admits : grammar.Admits symbol := fun same => absurd same own
    have entry : grammar.entryOf? symbol = none := if_neg own
    rw [lookup?, if_neg own, if_pos admits, entry]
    rfl

theorem alternatives?_eq_none_iff :
    grammar.alternatives? symbol = none ↔ ¬ grammar.Admits symbol := by
  rw [alternatives?, lookup?_eq]
  simp

theorem alternatives?_of_admits (admits : grammar.Admits symbol) :
    grammar.alternatives? symbol = some (grammar.alternatives symbol) := by
  rw [alternatives?, lookup?_eq, if_pos admits, alternatives]
  cases grammar.entryOf? symbol <;> rfl

theorem isTerminal?_of_admits (admits : grammar.Admits symbol) :
    grammar.isTerminal? symbol = some (grammar.isTerminal symbol) := by
  rw [isTerminal?, isTerminal]
  by_cases first : symbol = grammar.start
  · simp [first]
  · simp [first, alternatives?_of_admits admits]

theorem isNonterminal?_of_admits (admits : grammar.Admits symbol) :
    grammar.isNonterminal? symbol = some (grammar.isNonterminal symbol) := by
  rw [isNonterminal?, isTerminal?_of_admits admits]
  rfl

theorem addRule?_eq_some {head : Symbol} {body : List Symbol} {later : Grammar}
    (added : grammar.addRule? head body = some later) : later = grammar.addRule head body := by
  rw [addRule?] at added
  split at added
  · cases added
    rfl
  · cases added

end Admits

end Grammar
end ProgramSearch
