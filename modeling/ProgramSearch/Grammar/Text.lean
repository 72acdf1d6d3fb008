import ProgramSearch.Grammar.Basic

namespace ProgramSearch
namespace Grammar

/-!
# The printed form of a grammar

The first line names the start symbol, each head with a rule has a line with
its alternatives, and the last line lists the mentioned symbols.  A terminal
stands in double quotes and a nonterminal without.
-/

/-- A symbol as it stands in a printed grammar or program.  The name is written
as it is, whatever characters it holds. -/
def label (grammar : Grammar) (symbol : Symbol) : String :=
  if grammar.isTerminal symbol then
    "\"" ++ grammar.name symbol ++ "\""
  else
    grammar.name symbol

/-- Several symbols in a row. -/
def labels (grammar : Grammar) (symbols : List Symbol) : String :=
  " ".intercalate (symbols.map grammar.label)

/-- The sign for an alternative without symbols. -/
def emptyAlternative : String :=
  "ε"

/-- One right-hand side. -/
def bodyText (grammar : Grammar) (body : List Symbol) : String :=
  if body.isEmpty then emptyAlternative else grammar.labels body

/-- One head with all its alternatives. -/
def ruleText (grammar : Grammar) (head : Symbol) : String :=
  grammar.label head ++ " -> " ++
    " | ".intercalate ((grammar.alternatives head).map grammar.bodyText)

/-- The whole grammar, one line per head between the first line and the last. -/
def text (grammar : Grammar) : String :=
  "\n".intercalate
    (["start: " ++ grammar.label grammar.start]
      ++ grammar.heads.map grammar.ruleText
      ++ ["symbols: " ++ grammar.labels grammar.symbols])

end Grammar
end ProgramSearch
