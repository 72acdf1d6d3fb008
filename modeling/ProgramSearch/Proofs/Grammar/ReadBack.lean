import ProgramSearch.Grammar.Text
import ProgramSearch.Grammar.Validity
import ProgramSearch.Proofs.Grammar.Construction

namespace ProgramSearch
namespace Grammar

/-!
# A grammar is read back to the steps that built it

Names, marks, alternatives and heads are kept side by side, and a rule for another grammar's
symbol is dropped halfway through.  Still each of them tells a part of the construction in
full: what a step adds to each is stated once, and a sequence of steps adds it step by step.
-/

section Ownership

variable {grammar : Grammar} {symbol : Symbol}

theorem owner_of_owns (own : grammar.owns symbol = true) : symbol.owner = grammar.identity := by
  unfold owns entryOf? at own
  split at own
  · assumption
  · cases own

theorem owns_iff_mem_minted : grammar.owns symbol = true ↔ symbol ∈ grammar.minted := by
  rcases symbol with ⟨owner, position⟩
  by_cases own : owner = grammar.identity
  · subst own
    simp [owns, entryOf?, minted]
  · have foreign : grammar.identity ≠ owner := fun same => own same.symm
    simp [owns, entryOf?, minted, own, foreign]

/-- A step that is permitted has only own symbols and those of other grammars. -/
theorem Permits.owns_iff {step : GrammarStep} (permits : grammar.Permits step)
    (member : symbol ∈ step.symbols) :
    grammar.owns symbol = true ↔ symbol.owner = grammar.identity :=
  ⟨owner_of_owns, permits symbol member⟩

theorem alternatives_eq_nil_of_foreign (foreign : symbol.owner ≠ grammar.identity) :
    grammar.alternatives symbol = [] := by
  rw [alternatives, entryOf?, if_neg foreign]

end Ownership

/-! ## What one step adds -/

section Step

variable (grammar : Grammar)

theorem table_size_updateEntry (symbol : Symbol) (change : Entry → Entry) :
    (grammar.updateEntry symbol change).table.size = grammar.table.size := by
  unfold updateEntry
  split
  · exact Array.size_modify
  · rfl

theorem foreignHead_updateEntry (symbol : Symbol) (change : Entry → Entry) :
    (grammar.updateEntry symbol change).foreignHead = grammar.foreignHead := by
  unfold updateEntry
  split <;> rfl

/-- A mentioned symbol is marked if it is an own one. -/
theorem isMentioned_mention (mentioned symbol : Symbol) :
    (grammar.mention mentioned).isMentioned symbol =
      (grammar.isMentioned symbol || (grammar.owns symbol && decide (symbol = mentioned))) := by
  unfold isMentioned owns mention
  rw [entryOf?_updateEntry]
  by_cases here : symbol = mentioned <;> cases grammar.entryOf? symbol <;> simp [here]

theorem isMentioned_updateEntry (changed symbol : Symbol) (change : Entry → Entry)
    (keeps : ∀ entry, (change entry).mentioned = entry.mentioned) :
    (grammar.updateEntry changed change).isMentioned symbol = grammar.isMentioned symbol := by
  unfold isMentioned
  rw [entryOf?_updateEntry]
  by_cases here : symbol = changed <;> cases grammar.entryOf? symbol <;> simp [here, keeps]

theorem name_updateEntry (changed symbol : Symbol) (change : Entry → Entry)
    (keeps : ∀ entry, (change entry).name = entry.name) :
    (grammar.updateEntry changed change).name symbol = grammar.name symbol := by
  unfold name
  rw [entryOf?_updateEntry]
  by_cases here : symbol = changed <;> cases grammar.entryOf? symbol <;> simp [here, keeps]

theorem name_mention_foldl (mentioned : List Symbol) (symbol : Symbol) :
    (mentioned.foldl mention grammar).name symbol = grammar.name symbol := by
  induction mentioned generalizing grammar with
  | nil => rfl
  | cons first mentioned ih =>
      rw [List.foldl_cons, ih]
      exact grammar.name_updateEntry first symbol _ fun _ => rfl

/-- Mentioning symbols marks the own ones among them and leaves the size of the table, the
identity and the mark for a dropped rule. -/
theorem isMentioned_mention_foldl (mentioned : List Symbol) (symbol : Symbol) :
    (mentioned.foldl mention grammar).isMentioned symbol =
      (grammar.isMentioned symbol || (grammar.owns symbol && decide (symbol ∈ mentioned))) := by
  induction mentioned generalizing grammar with
  | nil => simp
  | cons first mentioned ih =>
      have kept : (grammar.mention first).owns symbol = grammar.owns symbol :=
        grammar.owns_updateEntry first symbol _
      rw [List.foldl_cons, ih, isMentioned_mention, kept]
      by_cases here : symbol = first <;> cases grammar.owns symbol <;> simp [here]

theorem frame_mention_foldl (mentioned : List Symbol) :
    (mentioned.foldl mention grammar).identity = grammar.identity ∧
      (mentioned.foldl mention grammar).table.size = grammar.table.size ∧
        (mentioned.foldl mention grammar).foreignHead = grammar.foreignHead := by
  induction mentioned generalizing grammar with
  | nil => exact ⟨rfl, rfl, rfl⟩
  | cons first mentioned ih =>
      rcases ih (grammar.mention first) with ⟨identity, size, foreign⟩
      exact ⟨identity.trans (identity_updateEntry _ _ _),
        size.trans (table_size_updateEntry _ _ _),
        foreign.trans (foreignHead_updateEntry _ _ _)⟩

variable (head : Symbol) (body : List Symbol)

/-- Whatever depends on neither alternatives, heads nor the mark is after a rule what it is
after the symbols in the rule have been mentioned. -/
theorem read_addRule {X : Type*} (read : Grammar → X)
    (appends : ∀ grammar : Grammar, read (grammar.updateEntry head fun entry =>
      { entry with alternatives := entry.alternatives ++ [body] }) = read grammar)
    (headed : ∀ (grammar : Grammar) (heads : List Symbol),
      read { grammar with heads } = read grammar)
    (marks : ∀ grammar : Grammar, read { grammar with foreignHead := true } = read grammar) :
    read (grammar.addRule head body) = read ((head :: body).foldl mention grammar) := by
  unfold addRule
  simp only
  split
  · split
    · exact appends _
    · exact (headed _ _).trans (appends _)
  · exact marks _

theorem identity_addRule : (grammar.addRule head body).identity = grammar.identity := by
  rw [grammar.read_addRule head body Grammar.identity
    (fun grammar => grammar.identity_updateEntry head _) (fun _ _ => rfl) fun _ => rfl]
  exact (grammar.frame_mention_foldl (head :: body)).1

theorem table_size_addRule : (grammar.addRule head body).table.size = grammar.table.size := by
  rw [grammar.read_addRule head body (fun grammar => grammar.table.size)
    (fun grammar => grammar.table_size_updateEntry head _) (fun _ _ => rfl) fun _ => rfl]
  exact (grammar.frame_mention_foldl (head :: body)).2.1

/-- A rule marks the own symbols on either side of it, also when it is dropped. -/
theorem isMentioned_addRule (symbol : Symbol) :
    (grammar.addRule head body).isMentioned symbol =
      (grammar.isMentioned symbol ||
        (grammar.owns symbol && decide (symbol ∈ head :: body))) := by
  rw [grammar.read_addRule head body (fun grammar => grammar.isMentioned symbol)
    (fun grammar => grammar.isMentioned_updateEntry head symbol _ fun _ => rfl)
    (fun _ _ => rfl) fun _ => rfl]
  exact grammar.isMentioned_mention_foldl (head :: body) symbol

theorem name_addRule (symbol : Symbol) :
    (grammar.addRule head body).name symbol = grammar.name symbol := by
  rw [grammar.read_addRule head body (fun grammar => grammar.name symbol)
    (fun grammar => grammar.name_updateEntry head symbol _ fun _ => rfl)
    (fun _ _ => rfl) fun _ => rfl]
  exact grammar.name_mention_foldl (head :: body) symbol

theorem heads_addRule : (grammar.addRule head body).heads =
    if grammar.owns head = true ∧ head ∉ grammar.heads then grammar.heads ++ [head]
    else grammar.heads := by
  have marked := (grammar.mention_foldl (head :: body)).1
  unfold addRule
  generalize (head :: body).foldl mention grammar = later at marked ⊢
  by_cases own : grammar.owns head = true <;> by_cases known : head ∈ grammar.heads <;>
    simp [own, known, marked]

theorem foreignHead_addRule : (grammar.addRule head body).foreignHead =
    (grammar.foreignHead || !grammar.owns head) := by
  have marked := (grammar.frame_mention_foldl (head :: body)).2.2
  unfold addRule
  generalize (head :: body).foldl mention grammar = later at marked ⊢
  by_cases own : grammar.owns head = true <;> by_cases known : head ∈ grammar.heads <;>
    simp [own, known, marked, foreignHead_updateEntry]

theorem isMentioned_mint (name : String) (symbol : Symbol) :
    (grammar.mint name).2.isMentioned symbol = grammar.isMentioned symbol := by
  unfold isMentioned
  rw [entryOf?_mint]
  by_cases new : symbol = (grammar.mint name).1
  · have unknown := grammar.owns_mint_eq_false name
    rw [owns, Option.isSome_eq_false_iff, Option.isNone_iff_eq_none, ← new] at unknown
    rw [if_pos new, unknown]
  · rw [if_neg new]

theorem name_mint (fresh : String) {symbol : Symbol} (own : grammar.owns symbol = true) :
    (grammar.mint fresh).2.name symbol = grammar.name symbol := by
  unfold Grammar.name
  rw [entryOf?_mint, if_neg]
  rintro rfl
  rw [grammar.owns_mint_eq_false] at own
  cases own

theorem minted_mint (name : String) :
    (grammar.mint name).2.minted = grammar.minted ++ [(grammar.mint name).1] := by
  simp [minted, mint, List.range_succ]

theorem minted_addRule : (grammar.addRule head body).minted = grammar.minted := by
  rw [minted, identity_addRule, table_size_addRule, minted]

end Step

section Extend

variable {grammar : Grammar} {step : GrammarStep} {symbol : Symbol}

theorem identity_extend (grammar : Grammar) (step : GrammarStep) :
    (grammar.extend step).identity = grammar.identity := by
  cases step with
  | symbol name => rfl
  | rule head body => exact grammar.identity_addRule head body

/-- A step adds its body behind the alternatives of its head. -/
theorem alternatives_extend (permits : grammar.Permits step)
    (own : symbol.owner = grammar.identity) :
    (grammar.extend step).alternatives symbol =
      grammar.alternatives symbol ++ (step.bodyOf? symbol).toList := by
  cases step with
  | symbol name => exact (alternatives_mint grammar name symbol).trans (List.append_nil _).symm
  | rule head body =>
      rw [extend, alternatives_addRule, GrammarStep.bodyOf?]
      by_cases here : head = symbol
      · subst here
        have owned := permits head List.mem_cons_self own
        simp [owned]
      · have elsewhere : symbol ≠ head := fun same => here same.symm
        simp [here, elsewhere]

/-- A step marks the symbols it refers to. -/
theorem isMentioned_extend (permits : grammar.Permits step)
    (own : symbol.owner = grammar.identity) :
    (grammar.extend step).isMentioned symbol = true ↔
      grammar.isMentioned symbol = true ∨ symbol ∈ step.symbols := by
  cases step with
  | symbol name =>
      rw [extend, isMentioned_mint]
      simp [GrammarStep.symbols]
  | rule head body =>
      rw [extend, isMentioned_addRule, Bool.or_eq_true, Bool.and_eq_true, decide_eq_true_iff]
      apply or_congr_right
      exact ⟨And.right, fun member => ⟨permits symbol member own, member⟩⟩

/-- A step adds its head behind the others, if it is an own one and the first rule is given
to it. -/
theorem heads_extend (permits : grammar.Permits step) :
    (grammar.extend step).heads = grammar.heads ++
      ((step.head?.toList.filter fun head => head.owner = grammar.identity).removeAll
        grammar.heads) := by
  cases step with
  | symbol name => exact (List.append_nil _).symm
  | rule head body =>
      have owned : grammar.owns head = true ↔ head.owner = grammar.identity :=
        permits.owns_iff List.mem_cons_self
      rw [extend, heads_addRule, GrammarStep.head?, Option.toList_some]
      by_cases own : head.owner = grammar.identity <;>
        by_cases known : head ∈ grammar.heads <;> simp [owned, own, known, List.removeAll]

/-- A step with another grammar's head leaves its mark. -/
theorem foreignHead_extend (permits : grammar.Permits step) :
    (grammar.extend step).foreignHead = true ↔
      grammar.foreignHead = true ∨
        ∃ head, step.head? = some head ∧ head.owner ≠ grammar.identity := by
  cases step with
  | symbol name =>
      change grammar.foreignHead = true ↔ _
      simp [GrammarStep.head?]
  | rule head body =>
      have owned : grammar.owns head = true ↔ head.owner = grammar.identity :=
        permits.owns_iff List.mem_cons_self
      rw [extend, foreignHead_addRule, Bool.or_eq_true, Bool.not_eq_true',
        ← Bool.not_eq_true, owned]
      simp [GrammarStep.head?]

end Extend

/-! ## What a construction leaves behind -/

theorem identity_foldl_extend (grammar : Grammar) (steps : List GrammarStep) :
    (steps.foldl extend grammar).identity = grammar.identity := by
  induction steps generalizing grammar with
  | nil => rfl
  | cons step steps ih => rw [List.foldl_cons, ih, identity_extend]

theorem identity_build (identity : Nat) (startName : String) (steps : List GrammarStep) :
    (build identity startName steps).identity = identity :=
  identity_foldl_extend (create identity startName) steps

/-- The symbols of a grammar are those it had before and those minted since, in order. -/
theorem minted_foldl_extend (grammar : Grammar) (steps : List GrammarStep) :
    (steps.foldl extend grammar).minted = grammar.minted ++ grammar.mintedBy steps := by
  induction steps generalizing grammar with
  | nil => exact (List.append_nil _).symm
  | cons step steps ih =>
      rw [List.foldl_cons, ih]
      cases step with
      | symbol name =>
          rw [extend, minted_mint, List.append_assoc]
          rfl
      | rule head body =>
          rw [extend, minted_addRule]
          rfl

/-- A symbol once minted remains the grammar's own. -/
theorem owns_foldl_extend {grammar : Grammar} {symbol : Symbol}
    (own : grammar.owns symbol = true) (steps : List GrammarStep) :
    (steps.foldl extend grammar).owns symbol = true := by
  rw [owns_iff_mem_minted] at own ⊢
  rw [minted_foldl_extend]
  exact List.mem_append_left _ own

/-- An own symbol keeps its name. -/
theorem name_foldl_extend {grammar : Grammar} {symbol : Symbol}
    (own : grammar.owns symbol = true) (steps : List GrammarStep) :
    (steps.foldl extend grammar).name symbol = grammar.name symbol := by
  induction steps generalizing grammar with
  | nil => rfl
  | cons step steps ih =>
      have kept : (grammar.extend step).owns symbol = true := owns_foldl_extend own [step]
      rw [List.foldl_cons, ih kept]
      cases step with
      | symbol fresh => exact grammar.name_mint fresh own
      | rule head body => exact grammar.name_addRule head body symbol

theorem refersBack_append_singleton {grammar : Grammar} {steps : List GrammarStep}
    {step : GrammarStep} :
    grammar.RefersBack (steps ++ [step]) ↔
      grammar.RefersBack steps ∧ (steps.foldl extend grammar).Permits step := by
  induction steps generalizing grammar with
  | nil => simp [RefersBack]
  | cons first steps ih => simp only [List.cons_append, RefersBack, ih, and_assoc, List.foldl_cons]

/-- A grammar that has kept in its tables what the given steps have said. -/
structure Records (grammar : Grammar) (steps : List GrammarStep) : Prop where
  alternatives : ∀ symbol, symbol.owner = grammar.identity →
    grammar.alternatives symbol = steps.filterMap (GrammarStep.bodyOf? symbol)
  mentioned : ∀ symbol, symbol.owner = grammar.identity →
    (grammar.isMentioned symbol = true ↔
      symbol = grammar.start ∨ ∃ step ∈ steps, symbol ∈ step.symbols)
  heads : grammar.heads = headsOf grammar.identity steps
  foreign : grammar.foreignHead = true ↔
    ∃ head ∈ steps.filterMap GrammarStep.head?, head.owner ≠ grammar.identity

namespace Records

theorem create (identity : Nat) (startName : String) :
    (create identity startName).Records [] where
  alternatives := fun symbol _ => alternatives_create identity startName symbol
  mentioned := by
    rintro ⟨owner, position⟩ own
    cases own
    cases position with
    | zero => simp [Grammar.create, isMentioned, entryOf?, start]
    | succ position => simp [Grammar.create, isMentioned, entryOf?, start]
  heads := rfl
  foreign := by simp [Grammar.create]

private theorem filterMap_singleton_eq_toList {X Y : Type*} (f : X → Option Y) (x : X) :
    [x].filterMap f = (f x).toList := by
  cases found : f x <;> simp [found]

/-- A permitted step is recorded behind those before it. -/
theorem extend {grammar : Grammar} {steps : List GrammarStep} {step : GrammarStep}
    (records : grammar.Records steps) (permits : grammar.Permits step) :
    (grammar.extend step).Records (steps ++ [step]) where
  alternatives := by
    intro symbol own
    rw [identity_extend] at own
    rw [alternatives_extend permits own, records.alternatives symbol own, List.filterMap_append,
      filterMap_singleton_eq_toList]
  mentioned := by
    intro symbol own
    have same : (grammar.extend step).start = grammar.start := by
      rw [start, identity_extend, start]
    rw [identity_extend] at own
    rw [isMentioned_extend permits own, records.mentioned symbol own, same, or_assoc]
    simp [or_and_right, exists_or]
  heads := by
    rw [heads_extend permits, records.heads, headsOf, headsOf, List.filterMap_append,
      List.filter_append, List.eraseDups_append, identity_extend, filterMap_singleton_eq_toList]
    congr 1
    cases step.head? with
    | none => rfl
    | some head =>
        by_cases own : head.owner = grammar.identity
        · by_cases known : ∃ step ∈ steps, step.head? = some head <;>
            simp [own, known, List.removeAll, List.eraseDups_cons]
        · simp [own]
  foreign := by
    rw [foreignHead_extend permits, records.foreign, List.filterMap_append, identity_extend,
      filterMap_singleton_eq_toList]
    simp [or_and_right, exists_or]

end Records

/-- Every construction is recorded by the grammar it leads to. -/
theorem records_build {identity : Nat} {startName : String} {steps : List GrammarStep}
    (refers : (create identity startName).RefersBack steps) :
    (build identity startName steps).Records steps := by
  induction steps using List.reverseRecOn with
  | nil => exact .create identity startName
  | append_singleton steps step ih =>
      rcases refersBack_append_singleton.mp refers with ⟨earlier, permits⟩
      rw [build_append_singleton]
      exact (ih earlier).extend permits

theorem minted_build (identity : Nat) (startName : String) (steps : List GrammarStep) :
    (build identity startName steps).minted =
      ⟨identity, 0⟩ :: (create identity startName).mintedBy steps :=
  minted_foldl_extend (create identity startName) steps

theorem nodup_minted (grammar : Grammar) : grammar.minted.Nodup := by
  rw [minted, List.Nodup, List.pairwise_map]
  apply List.Pairwise.imp _ List.nodup_range
  intro left right different same
  exact different (congrArg Symbol.position same)

theorem isTerminal_iff {grammar : Grammar} {symbol : Symbol} :
    grammar.isTerminal symbol = true ↔
      symbol ≠ grammar.start ∧ grammar.alternatives symbol = [] := by
  rw [isTerminal, Bool.and_eq_true, decide_eq_true_iff, List.isEmpty_iff]

/-- A rule for another grammar's symbol is the first obstacle to a search. -/
theorem validate_of_foreignHead {grammar : Grammar} (foreign : grammar.foreignHead = true) :
    grammar.validate = .error (.foreignSymbol foreignName) := by
  rw [validate, if_pos foreign]

/-- A nonterminal never becomes a terminal again. -/
theorem isNonterminal_foldl_extend {grammar : Grammar} {symbol : Symbol}
    (nonterminal : grammar.isNonterminal symbol = true) (steps : List GrammarStep) :
    (steps.foldl extend grammar).isNonterminal symbol = true := by
  induction steps generalizing grammar with
  | nil => exact nonterminal
  | cons step steps ih =>
      apply ih
      rw [isNonterminal, Bool.not_eq_true', ← Bool.not_eq_true, isTerminal_iff] at nonterminal ⊢
      rintro ⟨other, none⟩
      apply nonterminal
      rw [start, identity_extend] at other
      refine ⟨other, ?_⟩
      cases step with
      | symbol name =>
          rw [extend, alternatives_mint] at none
          exact none
      | rule head body =>
          rw [extend, alternatives_addRule] at none
          split at none
          · exact absurd none (by simp)
          · exact none

/-- A grammar is a faithful log of its construction.  Of the symbols minted, in order and each
once, every one has the bodies of its rules as alternatives, in the order in which they were
added; it is a terminal when it is not the start symbol and no rule was given to it, and a
nonterminal remains one; and it is listed when it is the start symbol or some rule refers to
it, also a dropped one.  The printed rules are those of the own heads, in the order of their
first rules.  Other grammars' symbols have no alternatives, and once a rule was to be given to
one of them, the grammar stays invalid. -/
theorem construction_read_back (identity : Nat) (startName : String)
    (steps : List GrammarStep) (refers : (create identity startName).RefersBack steps) :
    let grammar := build identity startName steps
    let minted := ⟨identity, 0⟩ :: (create identity startName).mintedBy steps
    (∀ symbol ∈ minted,
        grammar.alternatives symbol = steps.filterMap (GrammarStep.bodyOf? symbol) ∧
        (grammar.isTerminal symbol = true ↔
          symbol ≠ grammar.start ∧ ∀ body, .rule symbol body ∉ steps)) ∧
      (∀ symbol, symbol.owner ≠ identity → grammar.alternatives symbol = []) ∧
      (∀ symbol more, grammar.isNonterminal symbol = true →
        (build identity startName (steps ++ more)).isNonterminal symbol = true) ∧
      (minted.Nodup ∧ grammar.symbols = minted.filter fun symbol =>
        symbol = grammar.start ∨ ∃ step ∈ steps, symbol ∈ step.symbols) ∧
      grammar.text = "\n".intercalate
        (["start: " ++ grammar.label grammar.start]
          ++ (headsOf identity steps).map grammar.ruleText
          ++ ["symbols: " ++ grammar.labels grammar.symbols]) ∧
      ((∃ head body, .rule head body ∈ steps ∧ head.owner ≠ identity) →
        grammar.validate = .error (.foreignSymbol "<foreign>")) := by
  intro grammar minted
  have identity_eq : grammar.identity = identity := identity_build identity startName steps
  have minted_eq : minted = grammar.minted := (minted_build identity startName steps).symm
  have start_eq : grammar.start = ⟨identity, 0⟩ := congrArg (Symbol.mk · 0) identity_eq
  have records : grammar.Records steps := records_build refers
  refine ⟨?_, ?_, ?_, ⟨?_, ?_⟩, ?_, ?_⟩
  · intro symbol member
    rw [minted_eq, ← owns_iff_mem_minted] at member
    have given := records.alternatives symbol (owner_of_owns member)
    refine ⟨given, isTerminal_iff.trans (and_congr_right fun _ => ?_)⟩
    rw [given, List.filterMap_eq_nil_iff]
    constructor
    · intro none body among
      simpa [GrammarStep.bodyOf?] using none _ among
    · intro none step among
      cases step with
      | symbol name => rfl
      | rule head body =>
          apply if_neg
          rintro rfl
          exact none body among
  · intro symbol foreign
    rw [← identity_eq] at foreign
    exact alternatives_eq_nil_of_foreign foreign
  · intro symbol more nonterminal
    rw [build, List.foldl_append]
    exact isNonterminal_foldl_extend nonterminal more
  · rw [minted_eq]
    exact nodup_minted grammar
  · rw [minted_eq, symbols]
    apply List.filter_congr
    intro symbol member
    have own := owner_of_owns (owns_iff_mem_minted.mpr member)
    rw [Bool.eq_iff_iff, decide_eq_true_iff]
    exact records.mentioned symbol own
  · rw [text, records.heads, identity_eq]
  · rintro ⟨head, body, among, foreign⟩
    rw [← identity_eq] at foreign
    apply validate_of_foreignHead
    exact records.foreign.mpr ⟨head, List.mem_filterMap.mpr ⟨_, among, rfl⟩, foreign⟩

/-- Steps with a rule that refers to its own head and to another grammar, a rule given twice,
a rule dropped for its head that is the first to refer to `y`, and a symbol never used. -/
def tangled : List GrammarStep :=
  [.symbol "x", .rule ⟨0, 1⟩ [⟨0, 1⟩, ⟨9, 5⟩], .rule ⟨0, 0⟩ [], .symbol "y",
    .rule ⟨0, 1⟩ [⟨0, 0⟩], .rule ⟨9, 0⟩ [⟨0, 2⟩], .symbol "z", .rule ⟨0, 0⟩ []]

/-- The heads stand in the order of their first rules, `y` is listed for the sake of the
dropped rule, and the grammar stays invalid. -/
theorem construction_read_back_tangled :
    (create 0 "e").RefersBack tangled ∧
      (build 0 "e" tangled).alternatives ⟨0, 1⟩ = [[⟨0, 1⟩, ⟨9, 5⟩], [⟨0, 0⟩]] ∧
      (build 0 "e" tangled).isTerminal ⟨0, 2⟩ = true ∧
      (build 0 "e" tangled).alternatives ⟨9, 0⟩ = [] ∧
      (build 0 "e" tangled).symbols = [⟨0, 0⟩, ⟨0, 1⟩, ⟨0, 2⟩] ∧
      (build 0 "e" tangled).text =
        "start: e\nx -> x \"<foreign>\" | e\ne -> ε | ε\nsymbols: e x \"y\"" ∧
      (build 0 "e" tangled).validate = .error (.foreignSymbol "<foreign>") := by
  have refers : (create 0 "e").RefersBack tangled := by decide
  rcases construction_read_back 0 "e" tangled refers with
    ⟨own, others, _, ⟨_, listed⟩, printed, dropped⟩
  refine ⟨refers, (own ⟨0, 1⟩ (by decide)).1,
    (own ⟨0, 2⟩ (by decide)).2.mpr ⟨by decide, by simp [tangled]⟩,
    others ⟨9, 0⟩ (by decide), listed.trans (by decide), printed.trans ?_,
    dropped ⟨⟨9, 0⟩, [⟨0, 2⟩], by decide, by decide⟩⟩
  rfl

end Grammar
end ProgramSearch
