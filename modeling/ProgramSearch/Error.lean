namespace ProgramSearch

/-!
# What can go wrong, by cause

A grammar that cannot drive a search is refused before the search starts.
Evaluation errors split in two: a fault disqualifies the one candidate that
caused it, and everything else is a mistake in the setup that ends a search.
Each cause has one wording, given by its `message`.
-/

/-- Why a grammar cannot drive a search.  Symbols are given by name. -/
inductive GrammarError where
  | noProductions (start : String)
  | unproductive (start : String)
  | foreignSymbol (head : String)
deriving DecidableEq

namespace GrammarError

def message : GrammarError → String
  | noProductions start => s!"nonterminal `{start}` has no productions"
  | unproductive start => s!"nonterminal `{start}` cannot derive a complete program"
  | foreignSymbol head => s!"rule for `{head}` mentions a symbol of another grammar"

end GrammarError

/-- Why a program has no value.  A program with unexpanded parts is not an
error: evaluators answer that it has no value yet. -/
inductive EvalError where
  | missingLiteral (symbol : String)
  | parameterOutOfRange (index count : Nat)
  | fault (cause : String)
deriving DecidableEq

namespace EvalError

def message : EvalError → String
  | missingLiteral symbol => s!"`{symbol}` leaf has no literal attached"
  | parameterOutOfRange index count =>
      s!"parameter {index} is out of range for {count} argument(s)"
  | fault cause => cause

/-- Only a fault leaves the search running. -/
def isFatal : EvalError → Bool
  | fault _ => false
  | _ => true

end EvalError

/-- Why a synthesis gives no answer at all. -/
inductive SynthesisError where
  | grammar (error : GrammarError)
  | evaluation (error : EvalError)
deriving DecidableEq

namespace SynthesisError

def message : SynthesisError → String
  | grammar error => s!"malformed grammar: {error.message}"
  | evaluation error => s!"evaluation failed: {error.message}"

end SynthesisError

end ProgramSearch
