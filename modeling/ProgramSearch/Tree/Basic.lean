import ProgramSearch.Grammar.Basic

namespace ProgramSearch

/-!
# Program trees

One type serves a sketch with unexpanded nonterminal leaves, a sketch whose
terminal leaves still lack literals, and a complete program.  Trees are values:
changing a copy leaves every other copy as it was.

Only leaves carry literals.  The two operations that could break this rule keep
it: a node that gains children loses its literal, and a node with children
refuses one.
-/

/-- A node with its symbol, its literal if it has one, and its children. -/
inductive Tree (V : Type u) where
  | node (symbol : Symbol) (literal : Option V) (children : List (Tree V))

namespace Tree

variable {V : Type u}

def symbol : Tree V → Symbol
  | node symbol _ _ => symbol

def literal : Tree V → Option V
  | node _ literal _ => literal

def children : Tree V → List (Tree V)
  | node _ _ children => children

/-- A single node without a literal. -/
def leaf (symbol : Symbol) : Tree V :=
  node symbol none []

def isLeaf (tree : Tree V) : Bool :=
  tree.children.isEmpty

/-- Attach a literal to a leaf; a node with children stays as it is. -/
def withLiteral (value : V) : Tree V → Tree V
  | node symbol _ [] => node symbol (some value) []
  | tree => tree

/-- Append children in order.  A node that has children afterwards carries no
literal. -/
def addChildren (added : List (Tree V)) : Tree V → Tree V
  | node symbol literal children =>
      if (children ++ added).isEmpty then node symbol literal []
      else node symbol none (children ++ added)

mutual

/-- The number of nodes. -/
def size : Tree V → Nat
  | node _ _ children => 1 + forestSize children

/-- The number of nodes in several trees. -/
def forestSize : List (Tree V) → Nat
  | [] => 0
  | tree :: trees => tree.size + forestSize trees

end

mutual

/-- The nodes without children, left to right. -/
def leaves : Tree V → List (Tree V)
  | node symbol literal [] => [node symbol literal []]
  | node _ _ (child :: children) => child.leaves ++ forestLeaves children

/-- The leaves of several trees, left to right. -/
def forestLeaves : List (Tree V) → List (Tree V)
  | [] => []
  | tree :: trees => tree.leaves ++ forestLeaves trees

end

/-- The leaves that the grammar can still expand. -/
def nonterminalLeaves (grammar : Grammar) (tree : Tree V) : List (Tree V) :=
  tree.leaves.filter fun leaf => grammar.isNonterminal leaf.symbol

mutual

/-- Whether only leaves carry literals. -/
def literalsOnLeaves : Tree V → Bool
  | node _ _ [] => true
  | node _ literal (child :: children) =>
      literal.isNone && child.literalsOnLeaves && forestLiteralsOnLeaves children

/-- Whether only leaves carry literals in each of several trees. -/
def forestLiteralsOnLeaves : List (Tree V) → Bool
  | [] => true
  | tree :: trees => tree.literalsOnLeaves && forestLiteralsOnLeaves trees

end

mutual

/-- Trees are compared node by node. -/
def decideEq [DecidableEq V] : (left right : Tree V) → Decidable (left = right)
  | node symbol literal children, node symbol' literal' children' =>
      if symbols : symbol = symbol' then
        if literals : literal = literal' then
          match decideForestEq children children' with
          | isTrue same => isTrue (by rw [symbols, literals, same])
          | isFalse different => isFalse (by intro same; cases same; exact different rfl)
        else isFalse (by intro same; cases same; exact literals rfl)
      else isFalse (by intro same; cases same; exact symbols rfl)

/-- Several trees are compared one by one. -/
def decideForestEq [DecidableEq V] : (left right : List (Tree V)) → Decidable (left = right)
  | [], [] => isTrue rfl
  | [], _ :: _ => isFalse (by simp)
  | _ :: _, [] => isFalse (by simp)
  | tree :: trees, tree' :: trees' =>
      match decideEq tree tree' with
      | isTrue same =>
          match decideForestEq trees trees' with
          | isTrue rest => isTrue (by rw [same, rest])
          | isFalse different => isFalse (by intro both; cases both; exact different rfl)
      | isFalse different => isFalse (by intro both; cases both; exact different rfl)

end

instance [DecidableEq V] : DecidableEq (Tree V) :=
  decideEq

theorem forestLeaves_eq_flatMap (trees : List (Tree V)) :
    forestLeaves trees = trees.flatMap leaves := by
  induction trees with
  | nil => rfl
  | cons tree trees ih => simp [forestLeaves, ih]

theorem children_withLiteral (value : V) (tree : Tree V) :
    (tree.withLiteral value).children = tree.children := by
  rcases tree with ⟨symbol, literal, _ | ⟨child, children⟩⟩ <;> rfl

theorem children_addChildren (added : List (Tree V)) (tree : Tree V) :
    (tree.addChildren added).children = tree.children ++ added := by
  rcases tree with ⟨symbol, literal, children⟩
  rw [addChildren, Tree.children]
  split
  · rename_i empty
    exact (List.isEmpty_iff.mp empty).symm
  · rfl

/-- Adding no children changes nothing. -/
theorem addChildren_nil (tree : Tree V) (rule : tree.literalsOnLeaves = true) :
    tree.addChildren [] = tree := by
  rcases tree with ⟨symbol, literal, children⟩
  cases children with
  | nil => rfl
  | cons child children =>
      simp only [literalsOnLeaves, Bool.and_eq_true, Option.isNone_iff_eq_none] at rule
      simp [addChildren, rule.1.1]

end Tree

end ProgramSearch
