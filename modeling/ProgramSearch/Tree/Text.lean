import ProgramSearch.Grammar.Text
import ProgramSearch.Text.Quoted
import ProgramSearch.Tree.Basic

namespace ProgramSearch

/-!
# The printed forms of a tree

Both forms write a node as its label, followed by its literal in parentheses if
it has one.  The compact form puts the children in brackets, separated by commas.
The indented form puts one node on a line, three dashes before each node but
the root and three blanks more for each level below the first.
-/

/-- How literals of a type are written. -/
class LiteralText (V : Type u) where
  literalText : V → String

export LiteralText (literalText)

/-- Numbers are written in decimal. -/
instance : LiteralText Int64 where
  literalText value := value.toInt.repr

/-- Texts are written in quotes, some characters by their code. -/
@[reducible] def quotedLiterals (coded : Char → Bool) : LiteralText String where
  literalText := Quoted.quoteWith coded

instance : LiteralText String :=
  quotedLiterals Quoted.isCoded

namespace Tree

variable {V : Type u} [LiteralText V]

/-- The node's symbol and literal. -/
def label (grammar : Grammar) (tree : Tree V) : String :=
  match tree.literal with
  | none => grammar.label tree.symbol
  | some value => grammar.label tree.symbol ++ "(" ++ literalText value ++ ")"

mutual

/-- The tree on one line. -/
def text (grammar : Grammar) : Tree V → String
  | node symbol literal [] => label grammar (node symbol literal [])
  | node symbol literal (child :: children) =>
      label grammar (node symbol literal (child :: children))
        ++ "[" ++ text grammar child ++ laterTexts grammar children ++ "]"

/-- The children after the first, each behind a comma. -/
def laterTexts (grammar : Grammar) : List (Tree V) → String
  | [] => ""
  | tree :: trees => "," ++ text grammar tree ++ laterTexts grammar trees

end

/-- What stands before a node on its line: nothing at the root, and dashes behind the
blanks of the level above anywhere else. -/
def margin : Nat → String
  | 0 => ""
  | depth + 1 => String.ofList (List.replicate (3 * depth) ' ') ++ "---"

mutual

/-- The lines of a tree whose root stands at the given depth. -/
def lines (grammar : Grammar) (depth : Nat) : Tree V → List String
  | node symbol literal children =>
      (margin depth ++ label grammar (node symbol literal children))
        :: forestLines grammar (depth + 1) children

/-- The lines of several trees whose roots stand at the given depth. -/
def forestLines (grammar : Grammar) (depth : Nat) : List (Tree V) → List String
  | [] => []
  | tree :: trees => lines grammar depth tree ++ forestLines grammar depth trees

end

/-- The tree with one node per line. -/
def indentedText (grammar : Grammar) (tree : Tree V) : String :=
  "\n".intercalate (tree.lines grammar 0)

end Tree

end ProgramSearch
