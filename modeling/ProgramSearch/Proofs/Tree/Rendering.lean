import ProgramSearch.Proofs.Text.Label
import ProgramSearch.Proofs.Text.Page
import ProgramSearch.Proofs.Tree.Building

namespace ProgramSearch

/-!
# A printed tree determines the tree

In either form a node's label comes first and says which symbol and literal stand there, and
what follows says which children come next: on one line a bracket, a comma or the end, and on
several lines the depth of the next line.  So equal texts have equal roots, and their children
are equal one after the other.
-/

universe u

namespace Tree

variable {V : Type u} [LiteralText V] {grammar : Grammar}

/-- Every symbol of the tree has been minted by the grammar. -/
def Over (grammar : Grammar) (tree : Tree V) : Prop :=
  tree.Everywhere fun part => part.symbol ∈ grammar.minted

/-! ## On one line -/

/-- A child behind a comma. -/
def listed (grammar : Grammar) (tree : Tree V) : List Char :=
  ',' :: (text grammar tree).toList

/-- The children of a node in brackets; nothing for a leaf. -/
def bracketed (grammar : Grammar) : List (Tree V) → List Char
  | [] => []
  | child :: children =>
      '[' :: ((text grammar child).toList ++ (children.flatMap (listed grammar) ++ [']']))

theorem toList_laterTexts (trees : List (Tree V)) :
    (laterTexts grammar trees).toList = trees.flatMap (listed grammar) := by
  induction trees with
  | nil => rfl
  | cons tree trees ih =>
      rw [laterTexts, String.toList_append, String.toList_append, ih, List.flatMap_cons]
      rfl

theorem toList_text (symbol : Symbol) (literal : Option V) (children : List (Tree V)) :
    (text grammar (node symbol literal children)).toList =
      caption grammar symbol literal ++ bracketed grammar children := by
  cases children with
  | nil => rw [text, toList_label, bracketed, List.append_nil]
  | cons child children =>
      simp only [text, String.toList_append, toList_label, toList_laterTexts, List.append_assoc]
      rfl

/-- What may follow a tree on its line: nothing, a comma or a closing bracket. -/
def FollowsTree : List Char → Prop :=
  BeginsOutside fun char => char ≠ ',' ∧ char ≠ ']'

theorem followsNode_bracketed (children : List (Tree V)) {rest : List Char}
    (follows : FollowsTree rest) : FollowsNode (bracketed grammar children ++ rest) := by
  cases children with
  | nil =>
      intro first begins inside
      have outside := follows first begins
      rw [not_and_or, not_not, not_not] at outside
      rcases outside with rfl | rfl <;> revert inside <;> decide
  | cons child children =>
      rintro first begins inside
      cases begins
      revert inside
      decide

section Children

variable {children : List (Tree V)} (own : ∀ child ∈ children, child.Over grammar)
  (each : ∀ child ∈ children,
    StandsOut (Over grammar) FollowsTree (fun tree => (text grammar tree).toList) child)

include own each

/-- Children behind commas stand out in front of the bracket that closes them. -/
theorem standsOut_listed :
    StandsOut (fun other : List (Tree V) => ∀ child ∈ other, child.Over grammar)
      (fun rest => rest.head? = some ']') (List.flatMap (listed grammar)) children := by
  have closed : ∀ rest : List Char, rest.head? = some ']' → FollowsTree rest := by
    rintro rest last first begins ⟨_, other⟩
    exact other (Option.some.inj (begins.symm.trans last))
  have continued : ∀ tree : Tree V, tree.Over grammar →
      ∀ rest, FollowsTree (listed grammar tree ++ rest) := by
    rintro tree _ rest first begins ⟨other, _⟩
    cases begins
    exact other rfl
  apply standsOut_flatMap closed continued _ own
  · intro child member other rest rest' own' follows further same
    exact each child member own' follows further (List.cons.inj same).2
  · intro tree _ rest last
    cases last

/-- Children in brackets stand out from other children, and from none. -/
theorem standsOut_bracketed :
    StandsOut (fun other : List (Tree V) => ∀ child ∈ other, child.Over grammar) FollowsTree
      (bracketed grammar) children := by
  intro other rest rest' own' follows further same
  cases children with
  | nil =>
      cases other with
      | nil => exact ⟨rfl, same⟩
      | cons child other =>
          have opened : rest.head? = some '[' := congrArg List.head? same
          exact absurd ⟨by decide, by decide⟩ (follows '[' opened)
  | cons child children =>
      cases other with
      | nil =>
          have opened : rest'.head? = some '[' := congrArg List.head? same.symm
          exact absurd ⟨by decide, by decide⟩ (further '[' opened)
      | cons child' other =>
          -- The first child has no comma; with one in front, all members of the row are alike.
          have inside := (List.cons.inj same).2
          have behind : (child :: children).flatMap (listed grammar) ++ ']' :: rest =
              (child' :: other).flatMap (listed grammar) ++ ']' :: rest' := by
            simpa [listed] using inside
          rcases standsOut_listed own each own' rfl rfl behind with ⟨rows, closed⟩
          exact ⟨rows, (List.cons.inj closed).2⟩

end Children

/-- A tree on one line shows where it ends. -/
theorem standsOut_text (legible : LegibleLiterals V) (named : grammar.PlainlyNamed)
    {tree : Tree V} (own : tree.Over grammar) :
    StandsOut (Over grammar) FollowsTree (fun tree => (text grammar tree).toList) tree := by
  induction tree using induction_children with
  | inherit symbol literal children ih =>
      rintro ⟨symbol', literal', children'⟩ rest rest' own' follows further same
      rcases everywhere_node.mp own with ⟨here, below⟩
      rcases everywhere_node.mp own' with ⟨here', below'⟩
      simp only [toList_text, List.append_assoc] at same
      rcases caption_append_inj legible named here here' (followsNode_bracketed children follows)
        (followsNode_bracketed children' further) same with ⟨rfl, rfl, behind⟩
      rcases standsOut_bracketed below (fun child member => ih child member (below child member))
        below' follows further behind with ⟨rfl, rest_same⟩
      exact ⟨rfl, rest_same⟩

/-! ## On several lines -/

theorem forestLines_eq_flatMap (depth : Nat) (trees : List (Tree V)) :
    forestLines grammar depth trees = trees.flatMap (lines grammar depth) := by
  induction trees with
  | nil => rfl
  | cons tree trees ih => rw [forestLines, ih, List.flatMap_cons]

theorem lines_node (depth : Nat) (symbol : Symbol) (literal : Option V)
    (children : List (Tree V)) :
    lines grammar depth (node symbol literal children) =
      (margin depth ++ label grammar (node symbol literal children))
        :: children.flatMap (lines grammar (depth + 1)) := by
  rw [lines, forestLines_eq_flatMap]

/-- The margin below the root shows how deep a line stands, whatever its text begins with. -/
theorem margin_append_inj {depth depth' : Nat} {shown shown' : String}
    (same : margin (depth + 1) ++ shown = margin (depth' + 1) ++ shown') : depth = depth' := by
  have chars := congrArg String.toList same
  simp only [margin, String.toList_append, String.toList_ofList, List.append_assoc] at chars
  have blanks : ∀ count, ∀ char ∈ List.replicate count ' ', char = ' ' :=
    fun _ _ member => List.eq_of_mem_replicate member
  have dashes : ∀ rest, BeginsOutside (· = ' ') ("---".toList ++ rest) := by
    rintro rest first begins blank
    cases begins
    cases blank
  have runs := (append_inj_of_beginsOutside (blanks _) (blanks _) (dashes _) (dashes _) chars).1
  have lengths := congrArg List.length runs
  rw [List.length_replicate, List.length_replicate] at lengths
  exact Nat.eq_of_mul_eq_mul_left (by decide) lengths

/-- What may follow a tree whose root stands at a depth: nothing, or a line that stands no
deeper and is not the root's. -/
def NoDeeper (depth : Nat) (rest : List String) : Prop :=
  ∀ line ∈ rest.head?, ∃ level < depth, ∃ shown, line = margin (level + 1) ++ shown

theorem NoDeeper.succ {depth : Nat} {rest : List String} (shallow : NoDeeper depth rest) :
    NoDeeper (depth + 1) rest := by
  intro line first
  rcases shallow line first with ⟨level, less, shown⟩
  exact ⟨level, Nat.lt_succ_of_lt less, shown⟩

/-- The first line of a child stands deeper than its parent's line, by one level. -/
theorem head?_lines_append (grammar : Grammar) (depth : Nat) (tree : Tree V) (rest : List String) :
    ∃ shown, (lines grammar (depth + 1) tree ++ rest).head? =
      some (margin (depth + 1) ++ shown) := by
  rcases tree with ⟨symbol, literal, children⟩
  exact ⟨_, rfl⟩

theorem noDeeper_lines_append (depth : Nat) (tree : Tree V) (rest : List String) :
    NoDeeper (depth + 1) (lines grammar (depth + 1) tree ++ rest) := by
  rcases head?_lines_append grammar depth tree rest with ⟨shown, first⟩
  intro line begins
  exact ⟨depth, Nat.lt_succ_self depth, shown, Option.some.inj (begins.symm.trans first)⟩

theorem not_noDeeper_lines_append (depth : Nat) (tree : Tree V) (rest : List String) :
    ¬ NoDeeper depth (lines grammar (depth + 1) tree ++ rest) := by
  rcases head?_lines_append grammar depth tree rest with ⟨shown, first⟩
  intro shallow
  rcases shallow _ first with ⟨level, less, shown', same⟩
  exact absurd (margin_append_inj same) (Nat.ne_of_gt less)

/-- A tree on several lines ends in front of a line that stands no deeper than its root. -/
theorem standsOut_lines (legible : LegibleLiterals V) (named : grammar.PlainlyNamed)
    {tree : Tree V} (own : tree.Over grammar) (depth : Nat) :
    StandsOut (Over grammar) (NoDeeper depth) (lines grammar depth) tree := by
  induction tree using induction_children generalizing depth with
  | inherit symbol literal children ih =>
      rintro ⟨symbol', literal', children'⟩ rest rest' own' follows further same
      rcases everywhere_node.mp own with ⟨here, below⟩
      rcases everywhere_node.mp own' with ⟨here', below'⟩
      simp only [lines_node, List.cons_append] at same
      rcases List.cons.inj same with ⟨roots, behind⟩
      have captions := String.toList_inj.mpr ((String.append_right_inj _).mp roots)
      rw [toList_label, toList_label] at captions
      rcases caption_append_inj legible named here here' (beginsOutside_nil _)
        (beginsOutside_nil _) (congrArg (· ++ []) captions) with ⟨rfl, rfl, _⟩
      have row : StandsOut (fun other : List (Tree V) => ∀ child ∈ other, child.Over grammar)
          (NoDeeper depth) (List.flatMap (lines grammar (depth + 1))) children := by
        apply standsOut_flatMap (fun rest => NoDeeper.succ) _ _ below
        · exact fun child member => ih child member (below child member) (depth + 1)
        · exact fun child _ rest => noDeeper_lines_append depth child rest
        · exact fun child _ rest => not_noDeeper_lines_append depth child rest
      rcases row below' follows further behind with ⟨rfl, rest_same⟩
      exact ⟨rfl, rest_same⟩

theorem newline_notMem_margin (depth : Nat) : '\n' ∉ (margin depth).toList := by
  cases depth with
  | zero => exact List.not_mem_nil
  | succ depth =>
      rw [margin, String.toList_append, String.toList_ofList, List.mem_append]
      rintro (blank | dash)
      · cases List.eq_of_mem_replicate blank
      · revert dash
        decide

theorem newline_notMem_lines (legible : LegibleLiterals V) (named : grammar.PlainlyNamed)
    {tree : Tree V} (own : tree.Over grammar) (depth : Nat) :
    ∀ line ∈ lines grammar depth tree, '\n' ∉ line.toList := by
  induction tree using induction_children generalizing depth with
  | inherit symbol literal children ih =>
      rcases everywhere_node.mp own with ⟨here, below⟩
      rw [lines_node]
      intro line member
      rcases List.mem_cons.mp member with rfl | member
      · rw [String.toList_append, toList_label, List.mem_append, not_or]
        exact ⟨newline_notMem_margin depth, newline_notMem_caption legible named here literal⟩
      · rcases List.mem_flatMap.mp member with ⟨child, among, inside⟩
        exact ih child among (below child among) (depth + 1) line inside

theorem lines_ne_nil (depth : Nat) (tree : Tree V) : lines grammar depth tree ≠ [] := by
  rcases tree with ⟨symbol, literal, children⟩
  exact List.cons_ne_nil _ _

/-! ## Whole texts -/

section Whole

variable (legible : LegibleLiterals V) (named : grammar.PlainlyNamed) {left right : Tree V}
  (own : left.Over grammar) (own' : right.Over grammar)

include legible named own own'

theorem eq_of_text_eq (same : text grammar left = text grammar right) : left = right := by
  have ends : FollowsTree [] := beginsOutside_nil _
  exact (standsOut_text legible named own own' ends ends (congrArg (String.toList · ++ []) same)).1

theorem eq_of_indentedText_eq (same : indentedText grammar left = indentedText grammar right) :
    left = right := by
  have lineBreak : "\n".toList = ['\n'] := rfl
  have lines : lines grammar 0 left = lines grammar 0 right :=
    eq_of_intercalate_text_eq lineBreak (lines_ne_nil 0 left) (lines_ne_nil 0 right)
      (newline_notMem_lines legible named own 0) (newline_notMem_lines legible named own' 0) same
  have ends : NoDeeper 0 [] := by
    intro line begins
    cases begins
  exact (standsOut_lines legible named own 0 own' ends ends (congrArg (· ++ []) lines)).1

end Whole

end Tree

namespace Grammar

/-- Trees over the grammar's symbols are equal when either of their printed forms agrees, and
so one form tells apart what the other does. -/
structure TellsApart (V : Type u) [LiteralText V] (grammar : Grammar) : Prop where
  text : ∀ {left right : Tree V}, left.Over grammar → right.Over grammar →
    left.text grammar = right.text grammar → left = right
  indentedText : ∀ {left right : Tree V}, left.Over grammar → right.Over grammar →
    left.indentedText grammar = right.indentedText grammar → left = right
  alike : ∀ {left right : Tree V}, left.Over grammar → right.Over grammar →
    (left.text grammar = right.text grammar ↔
      left.indentedText grammar = right.indentedText grammar)

theorem tellsApart_of_legible {V : Type u} [LiteralText V] {grammar : Grammar}
    (legible : LegibleLiterals V) (named : grammar.PlainlyNamed) : grammar.TellsApart V where
  text := Tree.eq_of_text_eq legible named
  indentedText := Tree.eq_of_indentedText_eq legible named
  alike own own' :=
    ⟨fun same => by rw [Tree.eq_of_text_eq legible named own own' same],
      fun same => by rw [Tree.eq_of_indentedText_eq legible named own own' same]⟩

/-- In a grammar of distinct, plain names neither printed form loses anything, whether literals
are numbers or texts, and whichever characters of a text are written by their code. -/
theorem renderings_tell_apart (grammar : Grammar) (named : grammar.PlainlyNamed) :
    grammar.TellsApart Int64 ∧ grammar.TellsApart String ∧
      ∀ coded, @TellsApart String (quotedLiterals coded) grammar :=
  ⟨tellsApart_of_legible legibleLiterals_int64 named,
    tellsApart_of_legible (legibleLiterals_quoted Quoted.isCoded) named,
    fun coded => @tellsApart_of_legible String (quotedLiterals coded) grammar
      (legibleLiterals_quoted coded) named⟩

/-- One name is empty, and one looks like the margin of a line. -/
def layoutGrammar : Grammar :=
  (((create 0 "S").mint "").2.mint "   ---").2.addRule ⟨0, 2⟩ [⟨0, 0⟩]

/-- A literal that without its backslashes would read as two literals of two nodes. -/
def oneText : Tree String :=
  .node ⟨0, 2⟩ none [.node ⟨0, 1⟩ (some "a\"),\"\"(\"b") []]

def twoTexts : Tree String :=
  .node ⟨0, 2⟩ none [.node ⟨0, 1⟩ (some "a") [], .node ⟨0, 1⟩ (some "b") []]

theorem renderings_tell_apart_layout :
    layoutGrammar.PlainlyNamed ∧ oneText.Over layoutGrammar ∧ twoTexts.Over layoutGrammar ∧
      oneText.text layoutGrammar ≠ twoTexts.text layoutGrammar ∧
      oneText.indentedText layoutGrammar ≠ twoTexts.indentedText layoutGrammar := by
  have minted : layoutGrammar.minted = [⟨0, 0⟩, ⟨0, 1⟩, ⟨0, 2⟩] := rfl
  have names : layoutGrammar.name ⟨0, 0⟩ = "S" ∧ layoutGrammar.name ⟨0, 1⟩ = "" ∧
      layoutGrammar.name ⟨0, 2⟩ = "   ---" := ⟨rfl, rfl, rfl⟩
  have named : layoutGrammar.PlainlyNamed :=
    ⟨by simp [minted, names], by simp [minted, names, punctuation]⟩
  have one : oneText.Over layoutGrammar := by
    simp [oneText, Tree.Over, Tree.everywhere_node, Tree.symbol, minted]
  have two : twoTexts.Over layoutGrammar := by
    simp [twoTexts, Tree.Over, Tree.everywhere_node, Tree.symbol, minted]
  have differ : oneText ≠ twoTexts := by decide
  have apart := (renderings_tell_apart layoutGrammar named).2.1
  exact ⟨named, one, two, fun same => differ (apart.text one two same),
    fun same => differ (apart.indentedText one two same)⟩

end Grammar
end ProgramSearch
