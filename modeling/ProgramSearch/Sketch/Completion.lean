import ProgramSearch.Sample
import ProgramSearch.Tree.Basic

namespace ProgramSearch
namespace Tree

/-!
# The completions of a tree

A leaf for which literals are offered is completed by each of them in turn, and any
other leaf stays as it is.  A node with children is completed by completing its
children in every combination, the first child turning fastest.
-/

universe u

variable {V : Type u}

mutual

/-- The tree with every leaf filled from what is offered for it, in every way. -/
def completions (filler : Filler V) (sample : Sample V) : Tree V → List (Tree V)
  | node symbol literal [] =>
      match filler symbol sample with
      | [] => [node symbol literal []]
      | offered => offered.map fun value => node symbol (some value) []
  | node symbol literal (child :: children) =>
      (forestCompletions filler sample (child :: children)).map (node symbol literal)

/-- The completions of a row of trees, the first tree turning fastest. -/
def forestCompletions (filler : Filler V) (sample : Sample V) :
    List (Tree V) → List (List (Tree V))
  | [] => [[]]
  | tree :: trees =>
      (forestCompletions filler sample trees).flatMap fun later =>
        (completions filler sample tree).map (· :: later)

end

end Tree
end ProgramSearch
