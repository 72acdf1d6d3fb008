import ProgramSearch.Proofs.Grammar.Marking

namespace ProgramSearch
namespace Grammar

/-!
# What validation says of a construction

The answer is read off the steps: a rule for another grammar's symbol comes before one that only
mentions such a symbol, this before a start symbol without rules, and this before one from which
no tree leads to terminals.  Where heads share an obstacle, the first of them is named.
-/

section Construction

variable {identity : Nat} {startName : String} {steps : List GrammarStep}

/-- The own symbols that a construction refers to are in the table in the end. -/
theorem owns_foldl_extend_of_refersBack {grammar : Grammar}
    (refers : grammar.RefersBack steps) {step : GrammarStep} (among : step ∈ steps)
    {symbol : Symbol} (member : symbol ∈ step.symbols)
    (own : symbol.owner = grammar.identity) :
    (steps.foldl extend grammar).owns symbol = true := by
  induction steps generalizing grammar with
  | nil => cases among
  | cons first steps ih =>
      rcases refers with ⟨permits, later⟩
      rcases List.mem_cons.mp among with rfl | among
      · exact owns_foldl_extend (permits symbol member own) (step :: steps)
      · rw [List.foldl_cons]
        apply ih later among
        rw [identity_extend]
        exact own

theorem mem_heads?_iff {head : Symbol} :
    head ∈ steps.filterMap GrammarStep.head? ↔ ∃ body, .rule head body ∈ steps := by
  rw [List.mem_filterMap]
  constructor
  · rintro ⟨step, among, given⟩
    rcases GrammarStep.head?_eq_some_iff.mp given with ⟨body, rfl⟩
    exact ⟨body, among⟩
  · rintro ⟨body, among⟩
    exact ⟨_, among, rfl⟩

theorem mem_headsOf {head : Symbol} :
    head ∈ headsOf identity steps ↔
      head.owner = identity ∧ ∃ body, .rule head body ∈ steps := by
  rw [headsOf, List.mem_eraseDups, List.mem_filter, mem_heads?_iff, decide_eq_true_iff, and_comm]

variable (refers : (create identity startName).RefersBack steps)
include refers

/-- An own symbol has the bodies of its rules as alternatives. -/
theorem mem_alternatives_build {head : Symbol} (own : head.owner = identity)
    {body : List Symbol} :
    body ∈ (build identity startName steps).alternatives head ↔ .rule head body ∈ steps := by
  have given := (records_build refers).alternatives head (by rw [own, identity_build])
  rw [given, List.mem_filterMap]
  simp only [GrammarStep.bodyOf?_eq_some_iff, exists_eq_right]

theorem mentionsForeign_build {head : Symbol} (own : head.owner = identity) :
    (build identity startName steps).mentionsForeign head = true ↔
      GivesForeign identity steps head := by
  have native : ∀ body, .rule head body ∈ steps → ∀ symbol ∈ body,
      ((build identity startName steps).owns symbol = true ↔ symbol.owner = identity) := by
    intro body among symbol inside
    constructor
    · intro owned
      rw [owner_of_owns owned, identity_build]
    · intro owned
      exact owns_foldl_extend_of_refersBack refers among (List.mem_cons_of_mem _ inside) owned
  simp only [mentionsForeign, List.any_eq_true, Bool.not_eq_true', ← Bool.not_eq_true]
  constructor
  · rintro ⟨body, alternative, symbol, inside, foreign⟩
    have among := (mem_alternatives_build refers own).mp alternative
    exact ⟨body, among, symbol, inside, (not_congr (native body among symbol inside)).mp foreign⟩
  · rintro ⟨body, among, symbol, inside, foreign⟩
    exact ⟨body, (mem_alternatives_build refers own).mpr among, symbol, inside,
      (not_congr (native body among symbol inside)).mpr foreign⟩

theorem foreignHead_build :
    (build identity startName steps).foreignHead = true ↔ DropsRule identity steps := by
  rw [(records_build refers).foreign, identity_build]
  simp only [mem_heads?_iff, DropsRule, exists_and_right]

theorem find?_mentionsForeign_build_eq_none
    (native : ∀ head, head.owner = identity → ¬ GivesForeign identity steps head) :
    (build identity startName steps).heads.find?
      (build identity startName steps).mentionsForeign = none := by
  rw [List.find?_eq_none]
  intro head member mentions
  rw [(records_build refers).heads, identity_build] at member
  have own := (mem_headsOf.mp member).1
  exact native head own ((mentionsForeign_build refers own).mp mentions)

/-- Where no rule is dropped, the first head is found of those with a foreign symbol. -/
theorem find?_mentionsForeign_build_eq_some (kept : ¬ DropsRule identity steps)
    (given : ∃ head, GivesForeign identity steps head) :
    ∃ earlier head later, headsOf identity steps = earlier ++ head :: later ∧
      GivesForeign identity steps head ∧
      (∀ other ∈ earlier, ¬ GivesForeign identity steps other) ∧
      (build identity startName steps).heads.find?
        (build identity startName steps).mentionsForeign = some head := by
  have heads : (build identity startName steps).heads = headsOf identity steps := by
    rw [(records_build refers).heads, identity_build]
  have mentions : ∀ head ∈ headsOf identity steps,
      ((build identity startName steps).mentionsForeign head = true ↔
        GivesForeign identity steps head) :=
    fun head member => mentionsForeign_build refers (mem_headsOf.mp member).1
  cases found : (headsOf identity steps).find?
      (build identity startName steps).mentionsForeign with
  | none =>
      rcases given with ⟨head, body, among, foreign⟩
      have own : head.owner = identity := by
        by_contra other
        exact kept ⟨head, body, among, other⟩
      have member : head ∈ headsOf identity steps := mem_headsOf.mpr ⟨own, body, among⟩
      have reported := (mentions head member).mpr ⟨body, among, foreign⟩
      exact absurd reported (List.find?_eq_none.mp found head member)
  | some head =>
      rcases List.find?_eq_some_iff_append.mp found with
        ⟨reported, earlier, later, split, unreported⟩
      refine ⟨earlier, head, later, split, ?_, ?_, by rw [heads, found]⟩
      · exact (mentions head (List.mem_of_find?_eq_some found)).mp reported
      · intro other before gives
        have member : other ∈ headsOf identity steps := by
          rw [split]
          exact List.mem_append_left _ before
        have quiet := unreported other before
        rw [(mentions other member).mpr gives] at quiet
        cases quiet

end Construction

/-- In a construction the settled symbols are those that can be completed. -/
theorem settled_build_iff (identity : Nat) (startName : String) (steps : List GrammarStep)
    (symbol : Symbol) :
    (build identity startName steps).settled (build identity startName steps).productiveHeads
        symbol = true ↔ (build identity startName steps).Completable symbol :=
  settled_iff_completable fun head => (mem_heads_build identity startName steps head).mpr

/-! ## Constructions with own symbols only -/

section Own

variable {identity : Nat} {startName : String} {steps : List GrammarStep}
  (own : ∀ step ∈ steps, ∀ symbol ∈ step.symbols, symbol.owner = identity)
include own

theorem not_dropsRule_of_own : ¬ DropsRule identity steps := by
  rintro ⟨head, body, among, foreign⟩
  exact foreign (own _ among head List.mem_cons_self)

theorem not_givesForeign_of_own (head : Symbol) : ¬ GivesForeign identity steps head := by
  rintro ⟨body, among, symbol, inside, foreign⟩
  exact foreign (own _ among symbol (List.mem_cons_of_mem _ inside))

/-- Without a foreign symbol in a step no foreign symbol is reported. -/
theorem validate_ne_foreignSymbol (refers : (create identity startName).RefersBack steps)
    (name : String) : (build identity startName steps).validate ≠ .error (.foreignSymbol name) := by
  have kept := mt (foreignHead_build refers).mp (not_dropsRule_of_own own)
  have none := find?_mentionsForeign_build_eq_none refers fun head _ =>
    not_givesForeign_of_own own head
  rw [validate_of_find?_eq_none (Bool.eq_false_iff.mpr kept) none]
  split
  · simp
  · split <;> simp

end Own

/-! ## The start symbol -/

theorem owns_start_create (identity : Nat) (startName : String) :
    (create identity startName).owns ⟨identity, 0⟩ = true := by
  simp [owns, entryOf?, create]

theorem start_build (identity : Nat) (startName : String) (steps : List GrammarStep) :
    (build identity startName steps).start = ⟨identity, 0⟩ :=
  congrArg (Symbol.mk · 0) (identity_build identity startName steps)

theorem owns_start_build (identity : Nat) (startName : String) (steps : List GrammarStep) :
    (build identity startName steps).owns (build identity startName steps).start = true := by
  rw [start_build]
  exact owns_foldl_extend (owns_start_create identity startName) steps

theorem name_start_build (identity : Nat) (startName : String) (steps : List GrammarStep) :
    (build identity startName steps).name (build identity startName steps).start = startName := by
  rw [start_build, build, name_foldl_extend (owns_start_create identity startName)]
  simp [name, entryOf?, create]

/-- Validation classifies every construction.  A rule for another grammar's symbol is reported
first.  Next, of the heads in the order of their first rules, the first with a rule that mentions
another grammar's symbol is named.  Without such rules a start symbol is refused that has no
rule, or from which no derived tree leads to terminals only, and any other grammar is accepted.

If no rule for an own symbol mentions another grammar, the marking comes to rest.  It takes at
most one pass more than there are marks to set and looks up no symbol outside the table, and in
the end a mark is set exactly for the symbols that some derived tree completes. -/
theorem validate_classifies (identity : Nat) (startName : String) (steps : List GrammarStep)
    (refers : (create identity startName).RefersBack steps) :
    let grammar := build identity startName steps
    (DropsRule identity steps → grammar.validate = .error (.foreignSymbol "<foreign>")) ∧
      (¬ DropsRule identity steps → (∃ head, GivesForeign identity steps head) →
        ∃ earlier head later, headsOf identity steps = earlier ++ head :: later ∧
          GivesForeign identity steps head ∧
          (∀ other ∈ earlier, ¬ GivesForeign identity steps other) ∧
          grammar.validate = .error (.foreignSymbol (grammar.name head))) ∧
      (¬ DropsRule identity steps → (∀ head, ¬ GivesForeign identity steps head) →
        ((∀ body, .rule grammar.start body ∉ steps) →
          grammar.validate = .error (.noProductions startName)) ∧
        ((∃ body, .rule grammar.start body ∈ steps) →
          (grammar.Completable grammar.start → grammar.validate = .ok ()) ∧
          (¬ grammar.Completable grammar.start →
            grammar.validate = .error (.unproductive startName)))) ∧
      ((∀ head, head.owner = identity → ¬ GivesForeign identity steps head) →
        ∃ passes marks, passes ≤ grammar.terminalMarks.count false + 1 ∧
          grammar.Passes passes grammar.terminalMarks marks ∧
          grammar.productiveMarks? = some marks ∧
          (∀ symbol ∈ grammar.start :: grammar.heads, symbol.position < marks.length) ∧
          ∀ symbol, grammar.owns symbol = true →
            (Marked marks symbol ↔ grammar.Completable symbol)) := by
  intro grammar
  have start_own : grammar.owns grammar.start = true := owns_start_build identity startName steps
  have named : grammar.name grammar.start = startName := name_start_build identity startName steps
  have owned : ∀ head ∈ grammar.heads, grammar.owns head = true := owns_of_mem_heads_build
  have completable : ∀ symbol, grammar.settled grammar.productiveHeads symbol = true ↔
      grammar.Completable symbol := settled_build_iff identity startName steps
  have alternatives : ∀ body, body ∈ grammar.alternatives grammar.start ↔
      .rule grammar.start body ∈ steps :=
    fun body => mem_alternatives_build refers (identity_build identity startName steps)
  have dropped := foreignHead_build refers
  refine ⟨fun drops => ?_, fun kept given => ?_, fun kept native => ?_, fun native => ?_⟩
  · exact validate_of_foreignHead (dropped.mpr drops)
  · rcases find?_mentionsForeign_build_eq_some refers kept given with
      ⟨earlier, head, later, split, gives, before, first⟩
    refine ⟨earlier, head, later, split, gives, before, ?_⟩
    exact validate_of_find?_eq_some (Bool.eq_false_iff.mpr (mt dropped.mp kept)) first
  · have none := find?_mentionsForeign_build_eq_none refers fun head _ => native head
    have answer := validate_of_find?_eq_none (Bool.eq_false_iff.mpr (mt dropped.mp kept)) none
    rw [named] at answer
    constructor
    · intro bare
      have none : grammar.alternatives grammar.start = [] := by
        apply List.eq_nil_iff_forall_not_mem.mpr
        intro body member
        exact bare body ((alternatives body).mp member)
      exact answer.trans (if_pos (List.isEmpty_iff.mpr none))
    · rintro ⟨body, among⟩
      have some : ¬ (grammar.alternatives grammar.start).isEmpty = true := by
        rw [List.isEmpty_iff]
        exact List.ne_nil_of_mem ((alternatives body).mpr among)
      have productive : grammar.isProductive grammar.start = true ↔
          grammar.Completable grammar.start :=
        (isProductive_iff (native_of_find?_eq_none owned none) start_own).trans
          (completable grammar.start)
      rw [if_neg some] at answer
      constructor
      · intro complete
        exact answer.trans (if_pos (productive.mpr complete))
      · intro incomplete
        exact answer.trans (if_neg (mt productive.mp incomplete))
  · have none := find?_mentionsForeign_build_eq_none refers native
    rcases exists_productiveMarks? (native_of_find?_eq_none owned none) with
      ⟨passes, marks, within, leads, final, size, marked⟩
    refine ⟨passes, marks, within, leads, final, ?_, fun symbol own => ?_⟩
    · intro symbol member
      rw [size]
      apply position_lt_of_owns
      rcases List.mem_cons.mp member with rfl | member
      · exact start_own
      · exact owned symbol member
    · exact (marked symbol own).trans (completable symbol)

/-- Every pass over `e → x x`, `x → ε | y` and `y → y | c` that marks a head marks one only, the
last of those left. -/
def backward : List GrammarStep :=
  [.symbol "x", .symbol "y", .symbol "c", .rule ⟨0, 0⟩ [⟨0, 1⟩, ⟨0, 1⟩], .rule ⟨0, 1⟩ [],
    .rule ⟨0, 1⟩ [⟨0, 2⟩], .rule ⟨0, 2⟩ [⟨0, 2⟩], .rule ⟨0, 2⟩ [⟨0, 3⟩]]

/-- The rule for `x` is the first that mentions another grammar, but the first rule for `e`
was given before it. -/
def stray : List GrammarStep :=
  [.symbol "x", .rule ⟨0, 0⟩ [⟨0, 1⟩], .rule ⟨0, 1⟩ [⟨9, 5⟩], .rule ⟨0, 0⟩ [⟨9, 0⟩]]

/-- A dropped rule, a foreign symbol, a start symbol without rules, one without a tree and one
with a tree, which takes all the passes there can be. -/
theorem validate_classifies_each :
    ((create 0 "e").RefersBack tangled ∧
      (build 0 "e" tangled).validate = .error (.foreignSymbol "<foreign>")) ∧
    ((create 0 "e").RefersBack stray ∧ ∃ earlier head later,
      headsOf 0 stray = earlier ++ head :: later ∧ GivesForeign 0 stray head ∧
      (build 0 "e" stray).name head = "e") ∧
    (build 0 "e" [.symbol "x"]).validate = .error (.noProductions "e") ∧
    ¬ endless.Completable endless.start ∧
    ((create 0 "e").RefersBack backward ∧
      (build 0 "e" backward).Completable ⟨0, 0⟩ ∧
      (build 0 "e" backward).terminalMarks = [false, false, false, true] ∧
      (build 0 "e" backward).Passes 4 [false, false, false, true] [true, true, true, true]) := by
  have tangled_refers : (create 0 "e").RefersBack tangled := by decide
  have stray_refers : (create 0 "e").RefersBack stray := by decide
  have backward_refers : (create 0 "e").RefersBack backward := by decide
  refine ⟨⟨tangled_refers, ?_⟩, ⟨stray_refers, ?_⟩, ?_, ?_, backward_refers, ?_, by decide, ?_⟩
  · apply (validate_classifies 0 "e" tangled tangled_refers).1
    exact ⟨⟨9, 0⟩, [⟨0, 2⟩], by decide, by decide⟩
  · have kept : ¬ DropsRule 0 stray := mt (foreignHead_build stray_refers).mpr (by decide)
    rcases (validate_classifies 0 "e" stray stray_refers).2.1 kept
        ⟨⟨0, 1⟩, [⟨9, 5⟩], by decide, ⟨9, 5⟩, by decide, by decide⟩ with
      ⟨earlier, head, later, split, gives, _, answer⟩
    have reported : (build 0 "e" stray).validate = .error (.foreignSymbol "e") := by decide
    rw [reported, Except.error.injEq, GrammarError.foreignSymbol.injEq] at answer
    exact ⟨earlier, head, later, split, gives, answer.symm⟩
  · have own : ∀ step ∈ [GrammarStep.symbol "x"], ∀ symbol ∈ step.symbols, symbol.owner = 0 := by
      decide
    refine ((validate_classifies 0 "e" [.symbol "x"] (by decide)).2.2.1
      (not_dropsRule_of_own own) (not_givesForeign_of_own own)).1 ?_
    simp
  · intro complete
    have refused : endless.validate = .error (.unproductive "e") := by decide
    have own : ∀ step ∈ [GrammarStep.rule ⟨0, 0⟩ [], .rule ⟨0, 0⟩ [⟨0, 0⟩]],
        ∀ symbol ∈ step.symbols, symbol.owner = 0 := by decide
    have accepted := ((validate_classifies 0 "e" _ (by decide)).2.2.1
      (not_dropsRule_of_own own) (not_givesForeign_of_own own)).2 ⟨[], by decide⟩
    cases (accepted.1 complete).symm.trans refused
  · have own : ∀ step ∈ backward, ∀ symbol ∈ step.symbols, symbol.owner = 0 := by decide
    by_contra incomplete
    have refused := (((validate_classifies 0 "e" backward backward_refers).2.2.1
      (not_dropsRule_of_own own) (not_givesForeign_of_own own)).2
        ⟨[⟨0, 1⟩, ⟨0, 1⟩], by decide⟩).2 incomplete
    have accepted : (build 0 "e" backward).validate = .ok () := by decide
    cases accepted.symm.trans refused
  · exact .again rfl (.again rfl (.again rfl (.last rfl)))

end Grammar
end ProgramSearch
