import ProgramSearch.Grammar.Basic

namespace ProgramSearch

/-!
# How a grammar was built

A grammar is what a sequence of steps makes of a start symbol.  The steps can be
read back from the grammar: they are its symbols in minting order and its rules in
the order in which they were added to each symbol.
-/

/-- One step in the construction of a grammar. -/
inductive GrammarStep where
  | symbol (name : String)
  | rule (head : Symbol) (body : List Symbol)
deriving DecidableEq

namespace GrammarStep

/-- The symbols that a step refers to: those of a rule, on either side. -/
def symbols : GrammarStep → List Symbol
  | symbol _ => []
  | rule head body => head :: body

/-- The head of the rule that a step adds. -/
def head? : GrammarStep → Option Symbol
  | symbol _ => none
  | rule head _ => some head

/-- The body that a step gives to a symbol. -/
def bodyOf? (given : Symbol) : GrammarStep → Option (List Symbol)
  | symbol _ => none
  | rule head body => if head = given then some body else none

theorem head?_eq_some_iff {step : GrammarStep} {head : Symbol} :
    step.head? = some head ↔ ∃ body, step = rule head body := by
  cases step with
  | symbol name => simp [head?]
  | rule other body => simp [head?]

theorem bodyOf?_eq_some_iff {step : GrammarStep} {head : Symbol} {body : List Symbol} :
    step.bodyOf? head = some body ↔ step = rule head body := by
  cases step with
  | symbol name => simp [bodyOf?]
  | rule other right => simp [bodyOf?]

end GrammarStep

namespace Grammar

/-- The grammar after one more step. -/
def extend (grammar : Grammar) : GrammarStep → Grammar
  | .symbol name => (grammar.mint name).2
  | .rule head body => grammar.addRule head body

/-- The grammar that a sequence of steps builds on a start symbol. -/
def build (identity : Nat) (startName : String) (steps : List GrammarStep) : Grammar :=
  steps.foldl extend (create identity startName)

@[simp] theorem build_nil (identity : Nat) (startName : String) :
    build identity startName [] = create identity startName := rfl

/-- The last step of a construction is made on the grammar built before it. -/
@[simp] theorem build_append_singleton (identity : Nat) (startName : String)
    (steps : List GrammarStep) (step : GrammarStep) :
    build identity startName (steps ++ [step]) =
      (build identity startName steps).extend step := by
  simp [build]

/-- The symbols that a sequence of steps mints, in order. -/
def mintedBy (grammar : Grammar) : List GrammarStep → List Symbol
  | [] => []
  | .symbol name :: steps => (grammar.mint name).1 :: (grammar.mint name).2.mintedBy steps
  | .rule head body :: steps => (grammar.addRule head body).mintedBy steps

/-- The heads of one grammar that a sequence of steps gives rules to, each once and in the
order of their first rules. -/
def headsOf (identity : Nat) (steps : List GrammarStep) : List Symbol :=
  ((steps.filterMap GrammarStep.head?).filter fun head => head.owner = identity).eraseDups

/-- Some rule is for a symbol of another grammar. -/
def DropsRule (identity : Nat) (steps : List GrammarStep) : Prop :=
  ∃ head body, .rule head body ∈ steps ∧ head.owner ≠ identity

/-- Some rule for the head mentions a symbol of another grammar. -/
def GivesForeign (identity : Nat) (steps : List GrammarStep) (head : Symbol) : Prop :=
  ∃ body, .rule head body ∈ steps ∧ ∃ symbol ∈ body, symbol.owner ≠ identity

/-- A step refers to symbols of other grammars and to those that the grammar has minted. -/
def Permits (grammar : Grammar) (step : GrammarStep) : Prop :=
  ∀ symbol ∈ step.symbols, grammar.Admits symbol

/-- Every step refers to symbols of other grammars and to those minted before it. -/
def RefersBack (grammar : Grammar) : List GrammarStep → Prop
  | [] => True
  | step :: steps => grammar.Permits step ∧ (grammar.extend step).RefersBack steps

instance (grammar : Grammar) (step : GrammarStep) : Decidable (grammar.Permits step) :=
  inferInstanceAs (Decidable (∀ symbol ∈ step.symbols, grammar.Admits symbol))

/-- The steps are checked one after another, each on the grammar built before it. -/
def decideRefersBack (grammar : Grammar) : (steps : List GrammarStep) →
    Decidable (grammar.RefersBack steps)
  | [] => isTrue trivial
  | step :: steps =>
      have := decideRefersBack (grammar.extend step) steps
      inferInstanceAs (Decidable (grammar.Permits step ∧ (grammar.extend step).RefersBack steps))

instance (grammar : Grammar) (steps : List GrammarStep) :
    Decidable (grammar.RefersBack steps) :=
  grammar.decideRefersBack steps

end Grammar

end ProgramSearch
