import ProgramSearch.Evaluation
import ProgramSearch.Sample

namespace ProgramSearch

/-!
# Languages

A language is all that a search needs to know about programs: which trees there
are, what they mean, and which literals their leaves may carry.
-/

universe u

/-- A grammar, the meaning of its trees, and the literals for its leaves. -/
structure Language (V : Type u) where
  grammar : Grammar
  evaluate : Evaluator V
  filler : Filler V

end ProgramSearch
