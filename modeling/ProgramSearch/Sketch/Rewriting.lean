import ProgramSearch.Grammar.Basic
import ProgramSearch.Tree.Basic

namespace ProgramSearch
namespace Tree

/-!
# Rewriting one leaf

A rewriting of a tree replaces one of its leaves by the same symbol with the symbols
of one of its alternatives as children.  The rewritings are listed by recursion on
the tree, leaf by leaf from the left and alternative by alternative; no position in
the tree is computed.  A terminal has no alternatives and so is never rewritten, and
an empty alternative gives back the tree it was applied to.
-/

universe u

variable {V : Type u}

mutual

/-- The trees reached by one alternative at one leaf, in order. -/
def rewrites (grammar : Grammar) : Tree V → List (Tree V)
  | node symbol literal [] =>
      (grammar.alternatives symbol).map fun body =>
        addChildren (body.map leaf) (node symbol literal [])
  | node symbol literal (child :: children) =>
      (forestRewrites grammar (child :: children)).map (node symbol literal)

/-- The same for a row of trees, of which one is rewritten and the others are kept. -/
def forestRewrites (grammar : Grammar) : List (Tree V) → List (List (Tree V))
  | [] => []
  | tree :: trees =>
      (rewrites grammar tree).map (· :: trees)
        ++ (forestRewrites grammar trees).map (tree :: ·)

end

end Tree
end ProgramSearch
