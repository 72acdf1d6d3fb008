import ProgramSearch.Proofs.Text.Literal

namespace ProgramSearch

/-!
# Labels can be read back

In a grammar whose names differ and hold none of the characters that divide a printed tree, a
label names its symbol and shows where it ends: a terminal's at its second quote and a
nonterminal's in front of the next dividing character.  A literal in parentheses behind the
label shows the same.
-/

universe u

namespace Grammar

/-- The characters that divide a printed tree. -/
def punctuation : List Char :=
  ['"', '(', ')', '[', ']', ',', '\n']

/-- No two symbols have one name, and no name holds a dividing character. -/
structure PlainlyNamed (grammar : Grammar) : Prop where
  distinct : ∀ symbol ∈ grammar.minted, ∀ other ∈ grammar.minted,
    grammar.name symbol = grammar.name other → symbol = other
  plain : ∀ symbol ∈ grammar.minted, ∀ char ∈ (grammar.name symbol).toList,
    char ∉ punctuation

variable {grammar : Grammar}

/-- What may follow a label: nothing, or a dividing character that is no quote. -/
def FollowsLabel : List Char → Prop :=
  BeginsOutside fun char => char = '"' ∨ char ∉ punctuation

theorem beginsOutside_name {rest : List Char} (follows : FollowsLabel rest) :
    BeginsOutside (· ∉ punctuation) rest :=
  fun first begins other => follows first begins (.inr other)

/-- Only a terminal's label begins with a quote. -/
theorem head?_name_append (named : grammar.PlainlyNamed) {symbol : Symbol}
    (own : symbol ∈ grammar.minted) {rest : List Char} (follows : FollowsLabel rest) :
    ((grammar.name symbol).toList ++ rest).head? ≠ some '"' := by
  have plain := named.plain symbol own
  cases chars : (grammar.name symbol).toList with
  | nil => exact fun begins => follows '"' begins (.inl rfl)
  | cons char chars =>
      intro begins
      rw [chars] at plain
      cases begins
      exact plain '"' List.mem_cons_self (by decide)

/-- A label names its symbol and shows where it ends. -/
theorem standsOut_label (named : grammar.PlainlyNamed) {symbol : Symbol}
    (own : symbol ∈ grammar.minted) :
    StandsOut (· ∈ grammar.minted) FollowsLabel (fun symbol => (grammar.label symbol).toList)
      symbol := by
  intro other rest rest' own' follows follows' same
  have plain := named.plain symbol own
  have plain' := named.plain other own'
  have quoted : ∀ rest, BeginsOutside (· ∉ punctuation) ('"' :: rest) := by
    rintro rest first begins outside
    cases begins
    exact outside (by decide)
  cases terminal : grammar.isTerminal symbol <;> cases terminal' : grammar.isTerminal other <;>
    simp only [label, terminal, terminal', Bool.false_eq_true, if_false, if_true,
      String.toList_append, List.append_assoc] at same
  · rcases append_inj_of_beginsOutside plain plain' (beginsOutside_name follows)
      (beginsOutside_name follows') same with ⟨names, rest_same⟩
    exact ⟨named.distinct symbol own other own' (String.toList_inj.mp names), rest_same⟩
  · exact absurd (congrArg List.head? same) (head?_name_append named own follows)
  · exact absurd (congrArg List.head? same.symm) (head?_name_append named own' follows')
  · rcases append_inj_of_beginsOutside plain plain' (quoted rest) (quoted rest')
      (List.cons.inj same).2 with ⟨names, rest_same⟩
    exact ⟨named.distinct symbol own other own' (String.toList_inj.mp names),
      (List.cons.inj rest_same).2⟩

theorem newline_notMem_label (named : grammar.PlainlyNamed) {symbol : Symbol}
    (own : symbol ∈ grammar.minted) : '\n' ∉ (grammar.label symbol).toList := by
  have plain : '\n' ∉ (grammar.name symbol).toList :=
    fun member => named.plain symbol own '\n' member (by decide)
  rw [label]
  split
  · simp [String.toList_append, plain]
  · exact plain

end Grammar

namespace Tree

variable {V : Type u} [LiteralText V] {grammar : Grammar}

/-- A node's literal behind its label; nothing if it has none. -/
def inParentheses : Option V → List Char
  | none => []
  | some value => '(' :: ((literalText value).toList ++ [')'])

/-- A symbol with its literal, as a node shows them. -/
def caption (grammar : Grammar) (symbol : Symbol) (literal : Option V) : List Char :=
  (grammar.label symbol).toList ++ inParentheses literal

theorem toList_label (grammar : Grammar) (symbol : Symbol) (literal : Option V)
    (children : List (Tree V)) :
    (label grammar (node symbol literal children)).toList = caption grammar symbol literal := by
  cases literal with
  | none => exact (List.append_nil _).symm
  | some value =>
      simp [label, caption, inParentheses, Tree.literal, Tree.symbol, String.toList_append]

/-- What may follow the label of a node: nothing, or a dividing character that opens neither a
quotation nor a literal. -/
def FollowsNode : List Char → Prop :=
  BeginsOutside fun char => char = '(' ∨ char = '"' ∨ char ∉ Grammar.punctuation

theorem followsLabel_inParentheses (literal : Option V) {rest : List Char}
    (follows : FollowsNode rest) : Grammar.FollowsLabel (inParentheses literal ++ rest) := by
  cases literal with
  | none => exact fun first begins inside => follows first begins (.inr inside)
  | some value =>
      rintro first begins inside
      cases begins
      revert inside
      decide

/-- A literal in parentheses stands out where no other parenthesis may follow. -/
theorem standsOut_inParentheses (legible : LegibleLiterals V) (literal : Option V) :
    StandsOut (fun _ => True) FollowsNode inParentheses literal := by
  intro literal' rest rest' _ follows further same
  cases literal with
  | none =>
      cases literal' with
      | none => exact ⟨rfl, same⟩
      | some value' =>
          have opened : rest.head? = some '(' := congrArg List.head? same
          exact absurd (.inl rfl) (follows '(' opened)
  | some value =>
      cases literal' with
      | none =>
          have opened : rest'.head? = some '(' := congrArg List.head? same.symm
          exact absurd (.inl rfl) (further '(' opened)
      | some value' =>
          have closed : ∀ rest, BeginsOutside (· ≠ ')') (')' :: rest) := by
            rintro rest first begins other
            cases begins
            exact other rfl
          simp only [inParentheses, List.cons_append, List.append_assoc, List.nil_append,
            List.cons.injEq, true_and] at same
          rcases legible.standsOut value trivial (closed rest) (closed rest') same with
            ⟨rfl, behind⟩
          exact ⟨rfl, (List.cons.inj behind).2⟩

/-- A node's label shows its symbol, its literal and where it ends. -/
theorem caption_append_inj (legible : LegibleLiterals V) (named : grammar.PlainlyNamed)
    {symbol symbol' : Symbol} {literal literal' : Option V} (own : symbol ∈ grammar.minted)
    (own' : symbol' ∈ grammar.minted) {rest rest' : List Char} (follows : FollowsNode rest)
    (further : FollowsNode rest')
    (same : caption grammar symbol literal ++ rest = caption grammar symbol' literal' ++ rest') :
    symbol = symbol' ∧ literal = literal' ∧ rest = rest' := by
  rw [caption, caption, List.append_assoc, List.append_assoc] at same
  rcases Grammar.standsOut_label named own own' (followsLabel_inParentheses literal follows)
    (followsLabel_inParentheses literal' further) same with ⟨symbols, literals⟩
  exact ⟨symbols, standsOut_inParentheses legible literal trivial follows further literals⟩

theorem newline_notMem_caption (legible : LegibleLiterals V) (named : grammar.PlainlyNamed)
    {symbol : Symbol} (own : symbol ∈ grammar.minted) (literal : Option V) :
    '\n' ∉ caption grammar symbol literal := by
  have label := Grammar.newline_notMem_label named own
  cases literal with
  | none => simpa [caption, inParentheses] using label
  | some value => simpa [caption, inParentheses, legible.newline_notMem value] using label

end Tree
end ProgramSearch
