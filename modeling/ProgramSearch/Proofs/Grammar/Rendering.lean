import ProgramSearch.Grammar.Text
import ProgramSearch.Proofs.Grammar.Classification
import ProgramSearch.Proofs.Text.Page

namespace ProgramSearch
namespace Grammar

/-!
# A printed grammar determines its rules

A printed grammar is a page of words, and every word of its rules is a label or a sign.  Whether a
label is quoted hangs on the rules, and these are not known before the text has been read.  But
where no name holds a quote, a quoted label is not taken for a bare one, so a label names the
same symbol in all grammars with the same symbols.  Equal texts thus have equal lines, equal
words and, between the strokes, equal alternatives.
-/

/-- Two grammars have minted the same symbols under the same names. -/
structure SharesTable (left right : Grammar) : Prop where
  identity : left.identity = right.identity
  names : left.table.toList.map Entry.name = right.table.toList.map Entry.name

/-- The words in the alternatives of a printed rule that are no labels. -/
def signs : List String :=
  [emptyAlternative, "|"]

/-- No two symbols have one name, and every name is a word without quotes and is no sign.  A name
may be empty, and a sign may be part of it. -/
structure WordNamed (grammar : Grammar) : Prop where
  distinct : ∀ symbol ∈ grammar.minted, ∀ other ∈ grammar.minted,
    grammar.name symbol = grammar.name other → symbol = other
  plain : ∀ symbol ∈ grammar.minted, ∀ char ∈ (grammar.name symbol).toList,
    char ∉ ['"', ' ', '\n']
  noSign : ∀ symbol ∈ grammar.minted, grammar.name symbol ∉ signs

/-- Two grammars agree in all that their rules say. -/
structure SameRules (left right : Grammar) : Prop where
  heads : left.heads = right.heads
  alternatives : ∀ symbol, left.alternatives symbol = right.alternatives symbol
  terminal : ∀ symbol, left.isTerminal symbol = right.isTerminal symbol
  symbols : left.symbols = right.symbols

/-- The grammar is what some sequence of steps makes of a start symbol. -/
def Constructed (grammar : Grammar) : Prop :=
  ∃ identity startName steps, grammar = build identity startName steps

/-! ## The page of a grammar -/

section Page

variable (grammar : Grammar)

/-- The words of one alternative. -/
def bodyWords (body : List Symbol) : List String :=
  if body.isEmpty then [emptyAlternative] else body.map grammar.label

/-- The words of a head with its alternatives. -/
def ruleWords (head : Symbol) : List String :=
  grammar.label head :: "->" ::
    ["|"].intercalate ((grammar.alternatives head).map grammar.bodyWords)

/-- The words of all lines. -/
def page : List (List String) :=
  [["start:", grammar.label grammar.start]] ++ grammar.heads.map grammar.ruleWords
    ++ ["symbols:" :: grammar.symbols.map grammar.label]

theorem bodyWords_ne_nil (body : List Symbol) : grammar.bodyWords body ≠ [] := by
  cases body <;> simp [bodyWords]

theorem bodyText_eq_lineText (body : List Symbol) :
    grammar.bodyText body = Page.lineText (grammar.bodyWords body) := by
  cases body with
  | nil => rfl
  | cons symbol body => rfl

theorem ruleText_eq_lineText {head : Symbol} (filled : grammar.alternatives head ≠ []) :
    grammar.ruleText head = Page.lineText (grammar.ruleWords head) := by
  have bodies : (grammar.alternatives head).map grammar.bodyText =
      ((grammar.alternatives head).map grammar.bodyWords).map Page.lineText := by
    rw [List.map_map]
    exact List.map_congr_left fun body _ => grammar.bodyText_eq_lineText body
  have each : ∀ words ∈ (grammar.alternatives head).map grammar.bodyWords, words ≠ [] := by
    intro words member
    rcases List.mem_map.mp member with ⟨body, _, rfl⟩
    exact grammar.bodyWords_ne_nil body
  have grouped := Page.lineText_intercalate "|" each
  have nonempty : ["|"].intercalate ((grammar.alternatives head).map grammar.bodyWords) ≠ [] := by
    cases known : grammar.alternatives head with
    | nil => exact absurd known filled
    | cons body bodies => exact intercalate_ne_nil _ (grammar.bodyWords_ne_nil body) _
  have divided : " " ++ "|" ++ " " = " | " := rfl
  have arrow : " " ++ "->" ++ " " = " -> " := rfl
  rw [divided] at grouped
  rw [ruleText, bodies, ← grouped, ruleWords, Page.lineText, Page.lineText,
    String.intercalate_cons_cons, String.intercalate_cons_of_ne_nil nonempty, ← arrow]
  simp only [String.append_assoc]

theorem text_eq_pageText (filled : ∀ head ∈ grammar.heads, grammar.alternatives head ≠ [])
    (listed : grammar.symbols ≠ []) : grammar.text = Page.pageText grammar.page := by
  have rules : grammar.heads.map grammar.ruleText =
      (grammar.heads.map grammar.ruleWords).map Page.lineText := by
    rw [List.map_map]
    exact List.map_congr_left fun head member => grammar.ruleText_eq_lineText (filled head member)
  have first : "start: " ++ grammar.label grammar.start =
      Page.lineText ["start:", grammar.label grammar.start] := by
    rw [Page.lineText, String.intercalate_cons_cons, String.intercalate_singleton]
    rfl
  have last : "symbols: " ++ grammar.labels grammar.symbols =
      Page.lineText ("symbols:" :: grammar.symbols.map grammar.label) := by
    rw [Page.lineText, String.intercalate_cons_of_ne_nil (by simpa using listed)]
    rfl
  rw [text, rules, first, last, page, Page.pageText, List.map_append, List.map_append,
    List.map_singleton, List.map_singleton]

end Page

/-! ## Labels as words -/

namespace SharesTable

variable {left right : Grammar} (shared : left.SharesTable right)
include shared

theorem minted_eq : left.minted = right.minted := by
  have sizes := congrArg List.length shared.names
  rw [List.length_map, List.length_map, Array.length_toList, Array.length_toList] at sizes
  rw [minted, minted, shared.identity, sizes]

theorem start_eq : left.start = right.start := by
  rw [start, start, shared.identity]

theorem name_eq (symbol : Symbol) : left.name symbol = right.name symbol := by
  have entries := congrArg (·[symbol.position]?) shared.names
  simp only [List.getElem?_map, Array.getElem?_toList] at entries
  unfold name entryOf?
  rw [shared.identity]
  by_cases own : symbol.owner = right.identity
  · rw [if_pos own, if_pos own]
    cases here : left.table[symbol.position]? <;> cases there : right.table[symbol.position]? <;>
      simp_all
  · rw [if_neg own, if_neg own]

theorem wordNamed (named : left.WordNamed) : right.WordNamed where
  distinct := by
    rw [← shared.minted_eq]
    intro symbol own other own'
    rw [← shared.name_eq, ← shared.name_eq]
    exact named.distinct symbol own other own'
  plain := by
    rw [← shared.minted_eq]
    intro symbol own
    rw [← shared.name_eq]
    exact named.plain symbol own
  noSign := by
    rw [← shared.minted_eq]
    intro symbol own
    rw [← shared.name_eq]
    exact named.noSign symbol own

end SharesTable

section Word

variable {grammar : Grammar} (named : grammar.WordNamed) {symbol : Symbol}
  (own : symbol ∈ grammar.minted)
include named own

/-- The labels with quotes are those of the terminals. -/
theorem quote_mem_label_iff :
    '"' ∈ (grammar.label symbol).toList ↔ grammar.isTerminal symbol = true := by
  rw [label]
  split
  · rename_i terminal
    simp [terminal]
  · rename_i nonterminal
    exact iff_of_false (fun quoted => named.plain symbol own '"' quoted (by decide)) nonterminal

theorem isWord_label : Page.IsWord (grammar.label symbol) := by
  have blank : ' ' ∉ (grammar.name symbol).toList :=
    fun member => named.plain symbol own ' ' member (by decide)
  have lineBreak : '\n' ∉ (grammar.name symbol).toList :=
    fun member => named.plain symbol own '\n' member (by decide)
  rw [label]
  split
  · constructor
    · simpa using blank
    · simpa using lineBreak
  · exact ⟨blank, lineBreak⟩

/-- A label is not taken for a sign. -/
theorem label_notMem_signs : grammar.label symbol ∉ signs := by
  by_cases terminal : grammar.isTerminal symbol = true
  · have quoted := (quote_mem_label_iff named own).mpr terminal
    have unquoted : ∀ sign ∈ signs, '"' ∉ sign.toList := by decide
    exact fun sign => unquoted _ sign quoted
  · rw [label, if_neg terminal]
    exact named.noSign symbol own

end Word

/-- Grammars with one table never use one label for different symbols, though a symbol may be a
terminal in one and a nonterminal in the other. -/
theorem label_inj {left right : Grammar} (shared : left.SharesTable right)
    (named : left.WordNamed) {symbol other : Symbol} (own : symbol ∈ left.minted)
    (own' : other ∈ right.minted) (same : left.label symbol = right.label other) :
    symbol = other := by
  have status : left.isTerminal symbol = true ↔ right.isTerminal other = true := by
    rw [← quote_mem_label_iff named own, ← quote_mem_label_iff (shared.wordNamed named) own', same]
  rw [← shared.minted_eq] at own'
  apply named.distinct symbol own other own'
  rw [shared.name_eq other]
  by_cases terminal : left.isTerminal symbol = true
  · rw [label, label, if_pos terminal, if_pos (status.mp terminal)] at same
    exact (String.append_right_inj _).mp ((String.append_left_inj _).mp same)
  · rw [label, label, if_neg terminal, if_neg (terminal ∘ status.mpr)] at same
    exact same

/-! ## Rules as words -/

/-- A head with alternatives, of symbols that have all been minted. -/
structure Ruled (grammar : Grammar) (head : Symbol) : Prop where
  own : head ∈ grammar.minted
  filled : grammar.alternatives head ≠ []
  bodies : ∀ body ∈ grammar.alternatives head, ∀ symbol ∈ body, symbol ∈ grammar.minted

section Rule

variable {grammar : Grammar} (named : grammar.WordNamed)
include named

theorem isWord_of_mem_bodyWords {body : List Symbol}
    (own : ∀ symbol ∈ body, symbol ∈ grammar.minted) :
    ∀ word ∈ grammar.bodyWords body, Page.IsWord word := by
  intro word member
  rw [bodyWords] at member
  split at member
  · rw [List.mem_singleton.mp member]
    decide
  · rcases List.mem_map.mp member with ⟨symbol, inside, rfl⟩
    exact isWord_label named (own symbol inside)

theorem stroke_notMem_bodyWords {body : List Symbol}
    (own : ∀ symbol ∈ body, symbol ∈ grammar.minted) : "|" ∉ grammar.bodyWords body := by
  rw [bodyWords]
  split
  · decide
  · intro member
    rcases List.mem_map.mp member with ⟨symbol, inside, stroke⟩
    apply label_notMem_signs named (own symbol inside)
    rw [stroke]
    decide

theorem isLine_ruleWords {head : Symbol} (ruled : grammar.Ruled head) :
    Page.IsLine (grammar.ruleWords head) where
  filled := List.cons_ne_nil _ _
  each := by
    rw [ruleWords, List.forall_mem_cons, List.forall_mem_cons]
    refine ⟨isWord_label named ruled.own, by decide, ?_⟩
    intro word member
    rcases mem_intercalate member with stroke | ⟨words, among, inside⟩
    · rw [List.mem_singleton.mp stroke]
      decide
    · rcases List.mem_map.mp among with ⟨body, alternative, rfl⟩
      exact isWord_of_mem_bodyWords named (ruled.bodies body alternative) word inside

end Rule

section Pair

variable {left right : Grammar} (shared : left.SharesTable right) (named : left.WordNamed)
include shared named

theorem eq_of_labels_eq {symbols symbols' : List Symbol}
    (own : ∀ symbol ∈ symbols, symbol ∈ left.minted)
    (own' : ∀ symbol ∈ symbols', symbol ∈ right.minted)
    (same : symbols.map left.label = symbols'.map right.label) : symbols = symbols' :=
  eq_of_map_eq_map (fun symbol member other member' =>
    label_inj shared named (own symbol member) (own' other member')) same

/-- An alternative is told by its words; the sign for the empty one is no label. -/
theorem eq_of_bodyWords_eq {body body' : List Symbol}
    (own : ∀ symbol ∈ body, symbol ∈ left.minted)
    (own' : ∀ symbol ∈ body', symbol ∈ right.minted)
    (same : left.bodyWords body = right.bodyWords body') : body = body' := by
  cases body with
  | nil =>
      cases body' with
      | nil => rfl
      | cons symbol body' =>
          have label : emptyAlternative = right.label symbol := (List.cons.inj same).1
          have named' := shared.wordNamed named
          apply absurd _ (label_notMem_signs named' (own' symbol List.mem_cons_self))
          rw [← label]
          decide
  | cons symbol body =>
      cases body' with
      | nil =>
          have label : left.label symbol = emptyAlternative := (List.cons.inj same).1
          apply absurd _ (label_notMem_signs named (own symbol List.mem_cons_self))
          rw [label]
          decide
      | cons other body' => exact eq_of_labels_eq shared named own own' same

theorem eq_of_ruleWords_eq {head head' : Symbol} (ruled : left.Ruled head)
    (ruled' : right.Ruled head') (same : left.ruleWords head = right.ruleWords head') :
    head = head' ∧ left.alternatives head = right.alternatives head' := by
  rcases List.cons.inj same with ⟨heads, others⟩
  refine ⟨label_inj shared named ruled.own ruled'.own heads, ?_⟩
  -- Behind the arrow strokes stand between the alternatives and nowhere else.
  have rows := eq_of_intercalate_eq (by simpa using ruled.filled) (by simpa using ruled'.filled)
    (by simpa using fun body alternative =>
      stroke_notMem_bodyWords named (ruled.bodies body alternative))
    (by simpa using fun body alternative =>
      stroke_notMem_bodyWords (shared.wordNamed named) (ruled'.bodies body alternative))
    (List.cons.inj others).2
  exact eq_of_map_eq_map (fun body alternative body' alternative' =>
    eq_of_bodyWords_eq shared named (ruled.bodies body alternative)
      (ruled'.bodies body' alternative')) rows

end Pair

/-! ## Whole texts -/

/-- A grammar that can be read back from its text: the heads are the symbols with alternatives,
all symbols in rules have been minted, and the last line lists the start symbol. -/
structure Printable (grammar : Grammar) : Prop where
  ruled : ∀ head ∈ grammar.heads, grammar.Ruled head
  headed : ∀ symbol, grammar.alternatives symbol ≠ [] → symbol ∈ grammar.heads
  listed : grammar.start ∈ grammar.symbols

theorem isMentioned_start_build (identity : Nat) (startName : String)
    (steps : List GrammarStep) :
    (build identity startName steps).isMentioned ⟨identity, 0⟩ = true := by
  induction steps using List.reverseRecOn with
  | nil => simp [create, isMentioned, entryOf?]
  | append_singleton steps step ih =>
      rw [build_append_singleton]
      cases step with
      | symbol name =>
          rw [extend, isMentioned_mint]
          exact ih
      | rule head body =>
          rw [extend, isMentioned_addRule, ih, Bool.true_or]

theorem Constructed.printable {grammar : Grammar} (constructed : grammar.Constructed)
    (native : grammar.Native) : grammar.Printable := by
  rcases constructed with ⟨identity, startName, steps, rfl⟩
  refine ⟨?_, fun symbol => (mem_heads_build identity startName steps symbol).mpr, ?_⟩
  · intro head member
    refine ⟨owns_iff_mem_minted.mp (native.heads head member),
      (mem_heads_build identity startName steps head).mp member, ?_⟩
    intro body alternative symbol inside
    exact owns_iff_mem_minted.mp (native.bodies head member body alternative symbol inside)
  · rw [symbols, List.mem_filter, ← owns_iff_mem_minted]
    refine ⟨owns_start_build identity startName steps, ?_⟩
    rw [start_build]
    exact isMentioned_start_build identity startName steps

namespace Printable

variable {grammar : Grammar} (printable : grammar.Printable)
include printable

theorem text_eq_pageText : grammar.text = Page.pageText grammar.page :=
  grammar.text_eq_pageText (fun head member => (printable.ruled head member).filled)
    (List.ne_nil_of_mem printable.listed)

theorem isLine_of_mem_page (named : grammar.WordNamed) :
    ∀ line ∈ grammar.page, Page.IsLine line := by
  have minted : ∀ symbol ∈ grammar.symbols, symbol ∈ grammar.minted :=
    fun symbol member => List.mem_of_mem_filter member
  rw [page, List.forall_mem_append, List.forall_mem_append, List.forall_mem_singleton,
    List.forall_mem_singleton]
  refine ⟨⟨⟨List.cons_ne_nil _ _, ?_⟩, ?_⟩, ⟨List.cons_ne_nil _ _, ?_⟩⟩
  · rw [List.forall_mem_cons, List.forall_mem_singleton]
    exact ⟨by decide, isWord_label named (minted _ printable.listed)⟩
  · intro line member
    rcases List.mem_map.mp member with ⟨head, here, rfl⟩
    exact isLine_ruleWords named (printable.ruled head here)
  · rw [List.forall_mem_cons]
    refine ⟨by decide, ?_⟩
    intro word member
    rcases List.mem_map.mp member with ⟨symbol, here, rfl⟩
    exact isWord_label named (minted symbol here)

end Printable

section Whole

variable {left right : Grammar} (shared : left.SharesTable right)
include shared

theorem sameRules_of_page_eq (named : left.WordNamed) (printable : left.Printable)
    (printable' : right.Printable) (pages : left.page = right.page) : left.SameRules right := by
  rw [page, page] at pages
  rcases List.append_inj' pages rfl with ⟨front, last⟩
  have rules := (List.append_inj front rfl).2
  have heads : left.heads = right.heads :=
    eq_of_map_eq_map (fun head member head' member' words =>
      (eq_of_ruleWords_eq shared named (printable.ruled head member)
        (printable'.ruled head' member') words).1) rules
  have alternatives : ∀ symbol, left.alternatives symbol = right.alternatives symbol := by
    intro symbol
    by_cases head : symbol ∈ left.heads
    · have head' : symbol ∈ right.heads := heads ▸ head
      rw [← heads] at rules
      exact (eq_of_ruleWords_eq shared named (printable.ruled symbol head)
        (printable'.ruled symbol head') (List.map_inj_left.mp rules symbol head)).2
    · -- A symbol without a line has no alternatives in either grammar.
      have none := not_imp_comm.mp (printable.headed symbol) head
      have none' := not_imp_comm.mp (printable'.headed symbol) (heads ▸ head)
      rw [none, none']
  refine ⟨heads, alternatives, ?_, ?_⟩
  · intro symbol
    rw [isTerminal, isTerminal, shared.start_eq, alternatives]
  · exact eq_of_labels_eq shared named (fun symbol member => List.mem_of_mem_filter member)
      (fun symbol member => List.mem_of_mem_filter member)
      (List.cons.inj (List.cons.inj last).1).2

theorem text_eq_of_sameRules (rules : left.SameRules right) : left.text = right.text := by
  have label : left.label = right.label := by
    funext symbol
    rw [Grammar.label, Grammar.label, shared.name_eq, rules.terminal]
  have bodyText : left.bodyText = right.bodyText := by
    funext body
    rw [Grammar.bodyText, Grammar.bodyText, labels, labels, label]
  have ruleText : left.ruleText = right.ruleText := by
    funext head
    rw [Grammar.ruleText, Grammar.ruleText, label, bodyText, rules.alternatives]
  rw [text, text, label, ruleText, labels, labels, label, rules.heads, rules.symbols,
    shared.start_eq]

end Whole

/-- Two grammars with one table of symbols, whose names can stand as words, are printed alike
exactly when they have the same heads in the same order, the same alternatives in the same order,
the same terminals and the same mentioned symbols. -/
theorem text_eq_iff_sameRules {left right : Grammar} (constructed : left.Constructed)
    (constructed' : right.Constructed) (native : left.Native) (native' : right.Native)
    (shared : left.SharesTable right) (named : left.WordNamed) :
    left.text = right.text ↔ left.SameRules right := by
  have printable := constructed.printable native
  have printable' := constructed'.printable native'
  refine ⟨fun same => ?_, text_eq_of_sameRules shared⟩
  apply sameRules_of_page_eq shared named printable printable'
  apply Page.eq_of_pageText_eq _ _ (printable.isLine_of_mem_page named)
    (printable'.isLine_of_mem_page (shared.wordNamed named))
  · rw [← printable.text_eq_pageText, ← printable'.text_eq_pageText, same]
  · exact List.cons_ne_nil _ _
  · exact List.cons_ne_nil _ _

/-- One name holds a stroke and one is empty, and both symbols become nonterminals, so that they
are printed without quotes. -/
def bareNames (rules : List GrammarStep) : Grammar :=
  build 0 "S" ([.symbol "a|b", .symbol ""] ++ rules ++ [.rule ⟨0, 1⟩ [], .rule ⟨0, 2⟩ []])

/-- One alternative with both symbols. -/
def joined : Grammar :=
  bareNames [.rule ⟨0, 0⟩ [⟨0, 1⟩, ⟨0, 2⟩]]

/-- One alternative for each of them. -/
def divided : Grammar :=
  bareNames [.rule ⟨0, 0⟩ [⟨0, 1⟩], .rule ⟨0, 0⟩ [⟨0, 2⟩]]

/-- A stroke between blanks divides alternatives, and a stroke in a name does not.  The name after
the last blank of the rule for `S` is empty. -/
theorem text_eq_iff_sameRules_bare :
    joined.Constructed ∧ divided.Constructed ∧ joined.Native ∧ divided.Native ∧
      joined.SharesTable divided ∧ joined.WordNamed ∧
      joined.text = "start: S\nS -> a|b \na|b -> ε\n -> ε\nsymbols: S a|b " ∧
      (joined.text = divided.text ↔ joined.SameRules divided) ∧ joined.text ≠ divided.text := by
  have constructed : joined.Constructed := ⟨_, _, _, rfl⟩
  have constructed' : divided.Constructed := ⟨_, _, _, rfl⟩
  have native : joined.Native := ⟨by decide, by decide⟩
  have native' : divided.Native := ⟨by decide, by decide⟩
  have shared : joined.SharesTable divided := ⟨by decide, by decide⟩
  have minted : joined.minted = [⟨0, 0⟩, ⟨0, 1⟩, ⟨0, 2⟩] := rfl
  have names : joined.name ⟨0, 0⟩ = "S" ∧ joined.name ⟨0, 1⟩ = "a|b" ∧ joined.name ⟨0, 2⟩ = "" :=
    ⟨rfl, rfl, rfl⟩
  have named : joined.WordNamed :=
    ⟨by simp [minted, names], by simp [minted, names],
      by simp [minted, names, signs, emptyAlternative]⟩
  have printed : joined.text = "start: S\nS -> a|b \na|b -> ε\n -> ε\nsymbols: S a|b " :=
    rfl
  have alike := text_eq_iff_sameRules constructed constructed' native native' shared named
  refine ⟨constructed, constructed', native, native', shared, named, printed, alike,
    fun same => ?_⟩
  have rules := (alike.mp same).alternatives ⟨0, 0⟩
  revert rules
  decide

end Grammar
end ProgramSearch
