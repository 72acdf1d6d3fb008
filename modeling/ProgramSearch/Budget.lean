namespace ProgramSearch

/-!
# How far a search may go

A budget bounds the number of sketches taken from the worklist and may name a
token.  Tokens are signals set from outside and never withdrawn; several budgets
may watch one token.  A raised token stops a search before a spent limit does.
-/

/-- A signal that a search can be told to watch. -/
structure Token where
  number : Nat
deriving DecidableEq

/-- The tokens raised so far. -/
structure Signals where
  raised : List Token
deriving DecidableEq

namespace Signals

def none : Signals :=
  ⟨[]⟩

def raise (signals : Signals) (token : Token) : Signals :=
  ⟨token :: signals.raised⟩

def isRaised (signals : Signals) (token : Token) : Bool :=
  signals.raised.contains token

end Signals

/-- Why an enumeration has ended. -/
inductive StopReason where
  | frontierEmpty
  | budgetSpent
  | cancelled
deriving DecidableEq

namespace StopReason

/-- The name under which a reason is reported. -/
def name : StopReason → String
  | frontierEmpty => "FrontierEmpty"
  | budgetSpent => "BudgetSpent"
  | cancelled => "Cancelled"

end StopReason

/-- A bound on the sketches taken, and the token to watch. -/
structure Budget where
  limit : Nat
  token : Option Token
deriving DecidableEq

namespace Budget

/-- The number of sketches allowed when no limit is asked for. -/
def standardLimit : Nat :=
  400000

def ofLimit (limit : Nat) : Budget :=
  ⟨limit, none⟩

def standard : Budget :=
  ofLimit standardLimit

/-- Watch a token, and no other one any more. -/
def watching (budget : Budget) (token : Token) : Budget :=
  { budget with token := some token }

/-- Whether the watched token has been raised. -/
def isCancelled (budget : Budget) (signals : Signals) : Bool :=
  budget.token.any signals.isRaised

/-- Why no further sketch may be taken after a number of them, if it may not. -/
def stopReason (budget : Budget) (signals : Signals) (explored : Nat) : Option StopReason :=
  if budget.isCancelled signals then some .cancelled
  else if budget.limit ≤ explored then some .budgetSpent
  else none

/-- The number of sketches that may still be taken. -/
def remaining (budget : Budget) (explored : Nat) : Nat :=
  budget.limit - explored

theorem stopReason_eq_none_iff (budget : Budget) (signals : Signals) (explored : Nat) :
    budget.stopReason signals explored = none ↔
      budget.isCancelled signals = false ∧ explored < budget.limit := by
  unfold stopReason
  split <;> simp_all

end Budget

end ProgramSearch
