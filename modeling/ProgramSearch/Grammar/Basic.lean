import ProgramSearch.Grammar.Symbol

namespace ProgramSearch

/-!
# Grammars that only grow

A grammar owns a table with one entry per symbol it has minted.  Rules are
appended and never removed, so a symbol that has become a nonterminal stays
one.  A symbol of another grammar may stand in a rule: on the right it is
recorded as it is, and on the left the rule is dropped and the grammar marked.
Such a symbol has no alternatives here and reads as a terminal.

All questions about a symbol go through `entryOf?`, which knows exactly the
symbols of the grammar's own table.  A copy shares the identity of its original
and not the symbols that either mints later, so a grammar can be asked about a
symbol under its own identity that is past its table.  A lookup then breaks off
(`Grammar.lookup?`).  What is defined here has a value all the same, that for a
symbol of another grammar, and it tells something of the grammar for the symbols
that the grammar `Admits`.
-/

/-- What a grammar records about one of its symbols: the name it was minted
with, whether some rule mentions it, and its alternatives in order. -/
structure Entry where
  name : String
  mentioned : Bool
  alternatives : List (List Symbol)
deriving DecidableEq

/-- A symbol table, the left-hand sides in order of their first rule, and
whether a rule for another grammar's symbol has been dropped. -/
structure Grammar where
  identity : Nat
  table : Array Entry
  heads : List Symbol
  foreignHead : Bool
deriving DecidableEq

namespace Grammar

/-- The symbol every program starts from: the first one minted. -/
def start (grammar : Grammar) : Symbol :=
  ⟨grammar.identity, 0⟩

/-- A grammar with a start symbol and no rule.  The start symbol counts as
mentioned from the outset. -/
def create (identity : Nat) (startName : String) : Grammar where
  identity := identity
  table := #[⟨startName, true, []⟩]
  heads := []
  foreignHead := false

/-- The next symbol, with the grammar that has it.  It is a terminal until a
rule gives it an alternative. -/
def mint (grammar : Grammar) (name : String) : Symbol × Grammar :=
  (⟨grammar.identity, grammar.table.size⟩,
    { grammar with table := grammar.table.push ⟨name, false, []⟩ })

/-- The entry of one of the grammar's own symbols. -/
def entryOf? (grammar : Grammar) (symbol : Symbol) : Option Entry :=
  if symbol.owner = grammar.identity then grammar.table[symbol.position]? else none

/-- Whether the symbol has an entry in this grammar's table. -/
def owns (grammar : Grammar) (symbol : Symbol) : Bool :=
  (grammar.entryOf? symbol).isSome

/-- The symbol is of another grammar or has an entry in this grammar's table.  Only these
symbols can be looked up. -/
def Admits (grammar : Grammar) (symbol : Symbol) : Prop :=
  symbol.owner = grammar.identity → grammar.owns symbol = true

instance (grammar : Grammar) (symbol : Symbol) : Decidable (grammar.Admits symbol) :=
  inferInstanceAs (Decidable (symbol.owner = grammar.identity → grammar.owns symbol = true))

/-- Change the entry of an own symbol; other symbols change nothing. -/
def updateEntry (grammar : Grammar) (symbol : Symbol) (change : Entry → Entry) : Grammar :=
  if symbol.owner = grammar.identity then
    { grammar with table := grammar.table.modify symbol.position change }
  else grammar

/-- Record that a rule mentions the symbol. -/
def mention (grammar : Grammar) (symbol : Symbol) : Grammar :=
  grammar.updateEntry symbol fun entry => { entry with mentioned := true }

/-- Append the rule `head → body`.  Every own symbol in it becomes mentioned, also
when the head belongs to another grammar and the rule itself is dropped. -/
def addRule (grammar : Grammar) (head : Symbol) (body : List Symbol) : Grammar :=
  let marked := (head :: body).foldl mention grammar
  if grammar.owns head then
    let extended := marked.updateEntry head fun entry =>
      { entry with alternatives := entry.alternatives ++ [body] }
    if head ∈ grammar.heads then extended
    else { extended with heads := grammar.heads ++ [head] }
  else { marked with foreignHead := true }

/-- The right-hand sides given to a symbol, in order; none for a terminal. -/
def alternatives (grammar : Grammar) (symbol : Symbol) : List (List Symbol) :=
  match grammar.entryOf? symbol with
  | none => []
  | some entry => entry.alternatives

/-- How another grammar's symbol is named. -/
def foreignName : String :=
  "<foreign>"

/-- The name a symbol was minted with. -/
def name (grammar : Grammar) (symbol : Symbol) : String :=
  match grammar.entryOf? symbol with
  | none => foreignName
  | some entry => entry.name

/-- A terminal is any symbol without alternatives, the start symbol apart. -/
def isTerminal (grammar : Grammar) (symbol : Symbol) : Bool :=
  symbol ≠ grammar.start && (grammar.alternatives symbol).isEmpty

def isNonterminal (grammar : Grammar) (symbol : Symbol) : Bool :=
  !grammar.isTerminal symbol

/-- Every symbol minted so far, in minting order. -/
def minted (grammar : Grammar) : List Symbol :=
  (List.range grammar.table.size).map (Symbol.mk grammar.identity)

/-- Whether some rule mentions the symbol; the start symbol always counts. -/
def isMentioned (grammar : Grammar) (symbol : Symbol) : Bool :=
  match grammar.entryOf? symbol with
  | none => false
  | some entry => entry.mentioned

/-- The mentioned symbols, in minting order. -/
def symbols (grammar : Grammar) : List Symbol :=
  grammar.minted.filter grammar.isMentioned

@[simp] theorem identity_updateEntry (grammar : Grammar) (symbol : Symbol)
    (change : Entry → Entry) :
    (grammar.updateEntry symbol change).identity = grammar.identity := by
  unfold updateEntry
  split <;> rfl

/-- A changed entry is seen at its own symbol and nowhere else. -/
theorem entryOf?_updateEntry (grammar : Grammar) (changed symbol : Symbol)
    (change : Entry → Entry) :
    (grammar.updateEntry changed change).entryOf? symbol =
      if symbol = changed then (grammar.entryOf? symbol).map change
      else grammar.entryOf? symbol := by
  rcases symbol with ⟨owner, position⟩
  rcases changed with ⟨changedOwner, changedPosition⟩
  simp only [updateEntry, entryOf?, Symbol.mk.injEq]
  by_cases own : changedOwner = grammar.identity <;>
    by_cases here : owner = grammar.identity <;>
      grind

/-- A minted symbol is new to the grammar. -/
theorem owns_mint_eq_false (grammar : Grammar) (name : String) :
    grammar.owns (grammar.mint name).1 = false := by
  simp [owns, entryOf?, mint]

end Grammar

end ProgramSearch
