import ProgramSearch.Error
import ProgramSearch.Grammar.Marking

namespace ProgramSearch
namespace Grammar

/-!
# Grammars that can complete a program

A symbol is productive when it can be expanded all the way to terminals.  The marks
say so of every symbol.  They can be compared with rounds: a round keeps the heads
with a non-empty alternative whose symbols are terminals or were kept in the round
before.  An empty alternative does not count, because it leaves the symbol
where it is.  A round never loses a head, so as many rounds as there are heads
reach all that can be reached.

`validate` reports the first of four obstacles, and accepts a grammar exactly
when it finds none.
-/

/-- Whether a symbol is a terminal or already known to be productive. -/
def settled (grammar : Grammar) (known : List Symbol) (symbol : Symbol) : Bool :=
  grammar.isTerminal symbol || known.contains symbol

/-- Whether an alternative leads on to settled symbols only, and to at least one. -/
def completes (grammar : Grammar) (known : List Symbol) (body : List Symbol) : Bool :=
  !body.isEmpty && body.all (grammar.settled known)

/-- The heads with a completing alternative, given those already known. -/
def productiveRound (grammar : Grammar) (known : List Symbol) : List Symbol :=
  grammar.heads.filter fun head =>
    (grammar.alternatives head).any (grammar.completes known)

/-- The heads found productive within a number of rounds. -/
def productiveWithin (grammar : Grammar) : Nat → List Symbol
  | 0 => []
  | rounds + 1 => grammar.productiveRound (grammar.productiveWithin rounds)

/-- The left-hand sides that can be expanded to terminals. -/
def productiveHeads (grammar : Grammar) : List Symbol :=
  grammar.productiveWithin grammar.heads.length

/-- Whether some alternative of the head mentions another grammar's symbol. -/
def mentionsForeign (grammar : Grammar) (head : Symbol) : Bool :=
  (grammar.alternatives head).any fun body => body.any fun symbol => !grammar.owns symbol

/-- Whether the grammar can drive a search; if not, the first obstacle among a
dropped rule, a foreign symbol in a rule, a start symbol without rules and a
start symbol that is not productive. -/
def validate (grammar : Grammar) : Except GrammarError Unit :=
  if grammar.foreignHead then
    .error (.foreignSymbol foreignName)
  else
    match grammar.heads.find? grammar.mentionsForeign with
    | some head => .error (.foreignSymbol (grammar.name head))
    | none =>
        if (grammar.alternatives grammar.start).isEmpty then
          .error (.noProductions (grammar.name grammar.start))
        else if grammar.isProductive grammar.start then
          .ok ()
        else
          .error (.unproductive (grammar.name grammar.start))

end Grammar
end ProgramSearch
