import ProgramSearch.CommandLine.Report
import ProgramSearch.Proofs.Arithmetic.Reach
import ProgramSearch.Proofs.CommandLine.Reading

namespace ProgramSearch

/-!
# The arithmetic command never aborts

Every candidate of the arithmetic evaluates to a word or faults at an operation that
overflows, and neither ends a search.  So the command always prints what it has been asked
for: candidates, a program, or the line that says that there is none.  The three are told
apart by the first character of the output.
-/

namespace CommandLine

/-! ## How the output begins -/

theorem head?_append {text : String} {first : Char} (begins : text.toList.head? = some first)
    (rest : String) : (text ++ rest).toList.head? = some first := by
  rw [String.toList_append, List.head?_append, begins, Option.some_or]

theorem head?_lines {text : String} {first : Char} (begins : text.toList.head? = some first)
    (texts : List String) : (lines (text :: texts)).toList.head? = some first := by
  rw [lines, List.map_cons, String.join_cons]
  exact head?_append (head?_append begins _) _

theorem head?_exhaustedLine (explored : Nat) (reason : StopReason) :
    (exhaustedLine explored reason).toList.head? = some 'n' := by
  have begins : "no program found after ".toList.head? = some 'n' := by decide
  exact head?_append (head?_append (head?_append (head?_append begins _) _) _) _

theorem head?_candidateLine (grammar : Grammar) (candidate : Tree Int64) :
    (candidateLine grammar 0 candidate).toList.head? = some ' ' := by
  have begins : (paddedNumber 0).toList.head? = some ' ' := by decide
  exact head?_append (head?_append begins _) _

theorem head?_candidateLines (grammar : Grammar) (candidates : List (Tree Int64)) :
    (lines (candidateLines grammar candidates)).toList.head? ≠ some 'n' := by
  cases candidates with
  | nil =>
      intro impossible
      cases impossible
  | cons candidate candidates =>
      rw [candidateLines, List.zipIdx_cons, List.map_cons,
        head?_lines (head?_candidateLine grammar candidate)]
      decide

theorem head?_intercalate {X : Type} {separator row : List X} {first : X}
    (begins : row.head? = some first) (rows : List (List X)) :
    (separator.intercalate (row :: rows)).head? = some first := by
  cases rows with
  | nil => simp [begins]
  | cons other rows => simp [List.intercalate_cons_cons, begins]

theorem head?_indentedText (arithmetic : Arithmetic) (expression : Expression) :
    ((expression.program arithmetic).indentedText arithmetic.grammar).toList.head? = some 'S' := by
  have nonterminal : ¬ arithmetic.grammar.isTerminal (arithmetic.symbol .start) = true := by
    rw [Arithmetic.isTerminal_symbol]
    decide
  have label : arithmetic.grammar.label (arithmetic.symbol .start) = "S" := by
    rw [Grammar.label, if_neg nonterminal, Arithmetic.name_symbol]
    rfl
  rw [Tree.indentedText, String.toList_intercalate, Expression.program, Tree.lines, List.map_cons]
  apply head?_intercalate
  rw [Tree.label, Tree.literal, Tree.symbol, label]
  rfl

/-! ## Reports -/

theorem Report.success_ne_error (output : String) (error : SynthesisError) :
    Report.success output ≠ .error error := by
  intro same
  cases congrArg Report.messages same

theorem Report.failure_ne_error (output : String) (error : SynthesisError) :
    Report.failure output ≠ .error error := by
  intro same
  cases congrArg Report.messages same

/-- The code is one, or the output says that there is no program, and neither without the
other. -/
def Report.IsConsistent (report : Report) : Prop :=
  report.code = 1 ↔ ∃ explored reason, report.output = lines [exhaustedLine explored reason]

theorem Report.isConsistent_success {output : String} (other : output.toList.head? ≠ some 'n') :
    (Report.success output).IsConsistent := by
  apply iff_of_false
  · intro impossible
    cases impossible
  · rintro ⟨explored, reason, same⟩
    apply other
    rw [show output = lines [exhaustedLine explored reason] from same]
    exact head?_lines (head?_exhaustedLine explored reason) []

theorem Report.isConsistent_failure (explored : Nat) (reason : StopReason) :
    (Report.failure (lines [exhaustedLine explored reason])).IsConsistent :=
  iff_of_true rfl ⟨explored, reason, rfl⟩

/-! ## How the command ends -/

section Run

variable (budget : Nat) (output : Int64) (inputs constants : List Int64)

/-- The synthesis that the command asks for. -/
def commanded : Synthesizer Int64 :=
  Arithmetic.synthesizer ⟨0, constants, !inputs.isEmpty⟩ (Budget.ofLimit budget)

theorem runArithmetic_enumerate (count : Nat) :
    runArithmetic budget output inputs constants (some count) =
      .success (lines (candidateLines (Arithmetic.grammar ⟨0, constants, !inputs.isEmpty⟩)
        (((commanded budget inputs constants).enumerate ⟨output, inputs⟩).first
          Signals.none count).1)) := by
  rw [runArithmetic]
  simp only [Arithmetic.create_language, commanded]

theorem runArithmetic_search {outcome : Outcome Int64}
    (answered : (commanded budget inputs constants).synthesize Signals.none ⟨output, inputs⟩ =
      .ok outcome) :
    runArithmetic budget output inputs constants none =
      outcomeReport (Arithmetic.grammar ⟨0, constants, !inputs.isEmpty⟩) ⟨output, inputs⟩
        outcome := by
  rw [commanded] at answered
  rw [runArithmetic]
  simp only [Arithmetic.create_language, answered]

variable {budget output inputs constants}

/-- A program that has been found begins with the start symbol. -/
theorem head?_foundLines (nonempty : constants ≠ []) {signals : Signals} {program : Tree Int64}
    {explored : Nat}
    (found : (commanded budget inputs constants).synthesize signals ⟨output, inputs⟩ =
      .ok (.found program explored)) :
    (lines (foundLines (Arithmetic.grammar ⟨0, constants, !inputs.isEmpty⟩) ⟨output, inputs⟩
      program explored)).toList.head? = some 'S' := by
  rcases Synthesizer.exists_split_of_found found with ⟨_, _, _, solution, _⟩
  rcases (Arithmetic.isSolution_iff
    (Arithmetic.provided_of_inputs nonempty ⟨output, inputs⟩)).mp solution with
    ⟨expression, _, rfl, _⟩
  rw [foundLines]
  exact head?_lines (head?_indentedText ⟨0, constants, !inputs.isEmpty⟩ expression) _

end Run

/-- How a command for the arithmetic ends.  The code is zero if candidates are listed or a program
is found, and otherwise one, and then the output is the line that says that none was found. -/
structure EndsRegularly (budget : Nat) (output : Int64) (inputs constants : List Int64)
    (enumerate : Option Nat) (report : Report) : Prop where
  code : report.code = 0 ∨ report.code = 1
  success : report.code = 0 ↔ enumerate.isSome = true ∨ ∃ program explored,
    (commanded budget inputs constants).synthesize Signals.none ⟨output, inputs⟩ =
      .ok (.found program explored)
  failure : report.code = 1 ↔ ∃ explored reason,
    report.output = lines [exhaustedLine explored reason]

section Run

variable {budget : Nat} {output : Int64} {inputs constants : List Int64} {enumerate : Option Nat}

/-- Messages change nothing of it. -/
theorem EndsRegularly.withMessages {report : Report}
    (regular : EndsRegularly budget output inputs constants enumerate report)
    (messages : List String) :
    EndsRegularly budget output inputs constants enumerate (report.withMessages messages) :=
  ⟨regular.code, regular.success, regular.failure⟩

/-- With some constant the command is carried out. -/
theorem runArithmetic_ends (nonempty : constants ≠ []) :
    (∀ error, runArithmetic budget output inputs constants enumerate ≠ .error error) ∧
      EndsRegularly budget output inputs constants enumerate
        (runArithmetic budget output inputs constants enumerate) := by
  have provided : Arithmetic.Provided ⟨0, constants, !inputs.isEmpty⟩ ⟨output, inputs⟩ :=
    Arithmetic.provided_of_inputs nonempty ⟨output, inputs⟩
  cases enumerate with
  | some count =>
      rw [runArithmetic_enumerate]
      exact ⟨Report.success_ne_error _, Or.inl rfl, iff_of_true rfl (Or.inl rfl),
        Report.isConsistent_success (head?_candidateLines _ _)⟩
  | none =>
      rcases Synthesizer.found_or_exhausted
        (Arithmetic.neverFatal provided (Budget.ofLimit budget)) Signals.none with
        ⟨program, explored, found⟩ | ⟨⟨explored, reason, exhausted⟩, _⟩
      · have begins := head?_foundLines nonempty found
        rw [runArithmetic_search _ _ _ _ found, outcomeReport]
        refine ⟨Report.success_ne_error _, Or.inl rfl,
          iff_of_true rfl (Or.inr ⟨program, explored, found⟩), Report.isConsistent_success ?_⟩
        rw [begins]
        decide
      · rw [runArithmetic_search _ _ _ _ exhausted, outcomeReport]
        refine ⟨Report.failure_ne_error _, Or.inr rfl, iff_of_false ?_ ?_,
          Report.isConsistent_failure explored reason⟩
        · intro impossible
          cases impossible
        · rintro (impossible | ⟨program, explored, found⟩)
          · cases impossible
          · rw [commanded, exhausted] at found
            cases found

end Run

/-- The arithmetic search never aborts.  With some constant, and with parameters only if there
are inputs, every candidate has a value or faults at an operation whose exact result does not
fit, under every budget and all signals; so no step reports an error, and no synthesis ends with
one.  Nor does a command for the arithmetic with some constant, however it has come about, and a
command line always supplies one. -/
theorem arithmetic_never_aborts :
    (∀ (arithmetic : Arithmetic) (sample : Sample Int64) (budget : Budget),
      arithmetic.constants ≠ [] → (arithmetic.withParameters = true → sample.inputs ≠ []) →
        (∀ calls program,
          some program ∈ ((arithmetic.synthesizer budget).enumerate sample).answers calls →
            (∃ value, arithmetic.evaluate program ⟨sample.inputs⟩ = .ok (some value)) ∨
              arithmetic.Faults ⟨sample.inputs⟩ program) ∧
          (∀ calls, ∀ report ∈ ((arithmetic.synthesizer budget).search sample).reports calls,
            ∃ verdict, report = .ok verdict) ∧
          ∀ signals error,
            (arithmetic.synthesizer budget).synthesize signals sample ≠ .error error) ∧
      (∀ (invocation : Invocation) output inputs constants enumerate, constants ≠ [] →
        invocation.command = .arithmetic output inputs constants enumerate →
          (∀ error, invocation.command.run invocation.budget ≠ .error error) ∧
            EndsRegularly invocation.budget output inputs constants enumerate invocation.run) ∧
      ∀ words invocation output inputs constants enumerate,
        read words = .ok invocation →
        invocation.command = .arithmetic output inputs constants enumerate →
          (∀ error, invocation.command.run invocation.budget ≠ .error error) ∧
            EndsRegularly invocation.budget output inputs constants enumerate (report words) := by
  have carried_out : ∀ (invocation : Invocation) output inputs constants enumerate,
      constants ≠ [] → invocation.command = .arithmetic output inputs constants enumerate →
        (∀ error, invocation.command.run invocation.budget ≠ .error error) ∧
          EndsRegularly invocation.budget output inputs constants enumerate invocation.run := by
    intro invocation output inputs constants enumerate nonempty asked
    rw [Invocation.run, asked, Command.run]
    rcases runArithmetic_ends nonempty with ⟨done, regular⟩
    refine ⟨done, ?_⟩
    split
    · exact regular
    · exact regular.withMessages _
  refine ⟨?_, carried_out, ?_⟩
  · intro arithmetic sample budget nonempty inputs
    have provided : arithmetic.Provided sample := ⟨nonempty, inputs⟩
    have mild := Arithmetic.neverFatal provided budget
    refine ⟨?_, fun calls report => Synthesizer.ok_of_mem_reports mild,
      fun signals => Synthesizer.synthesize_ne_error mild⟩
    intro calls program answered
    have isProgram := (Enumeration.reached_run ((arithmetic.synthesizer budget).problem sample)
      calls).isProgram (List.reduceOption_mem_iff.mpr answered)
    rcases Arithmetic.exists_means provided isProgram with ⟨_ | value, means⟩
    · exact Or.inr means
    · exact Or.inl ⟨value, means⟩
  · intro words invocation output inputs constants enumerate accepted asked
    have nonempty := constants_ne_nil_of_read accepted asked
    rw [report, accepted]
    exact carried_out invocation output inputs constants enumerate nonempty asked

/-- The constant one is a candidate of the arithmetic over one.  A command that lists candidates
ends with code zero, with messages as without, and so does a command line that asks for one, which
prints no word about a search. -/
theorem arithmetic_never_aborts_one :
    (some ((Expression.constant 1).program ⟨0, [1], false⟩) ∈
        ((Arithmetic.synthesizer ⟨0, [1], false⟩ (Budget.ofLimit 6)).enumerate ⟨3, []⟩).answers
          [Signals.none] ∧
      ((∃ value, Arithmetic.evaluate ⟨0, [1], false⟩
          ((Expression.constant 1).program ⟨0, [1], false⟩) ⟨[]⟩ = .ok (some value)) ∨
        Arithmetic.Faults ⟨0, [1], false⟩ ⟨[]⟩ ((Expression.constant 1).program ⟨0, [1], false⟩))) ∧
      (Invocation.run ⟨2, 6, .arithmetic 3 [] [1] (some 2)⟩).code = 0 ∧
      (report ["arith", "--output", "3", "--enumerate=1"]).code = 0 ∧
        ¬ ∃ explored reason, (report ["arith", "--output", "3", "--enumerate=1"]).output =
          lines [exhaustedLine explored reason] := by
  have answered : some ((Expression.constant 1).program ⟨0, [1], false⟩) ∈
      ((Arithmetic.synthesizer ⟨0, [1], false⟩ (Budget.ofLimit 6)).enumerate ⟨3, []⟩).answers
        [Signals.none] := by decide +kernel
  have accepted : read ["arith", "--output", "3", "--enumerate=1"] =
      .ok ⟨0, 400000, .arithmetic 3 [] [0, 1, 2] (some 1)⟩ := by decide +kernel
  have candidates := (arithmetic_never_aborts.1 ⟨0, [1], false⟩ ⟨3, []⟩ (Budget.ofLimit 6)
    (by decide) (by decide)).1 _ _ answered
  have listed := (arithmetic_never_aborts.2.1 ⟨2, 6, .arithmetic 3 [] [1] (some 2)⟩ _ _ _ _
    (by decide) rfl).2
  have regular := (arithmetic_never_aborts.2.2 _ _ _ _ _ _ accepted rfl).2
  have code := regular.success.mpr (Or.inl rfl)
  refine ⟨⟨answered, candidates⟩, listed.success.mpr (Or.inl rfl), code, ?_⟩
  rw [← regular.failure, code]
  decide

end CommandLine

end ProgramSearch
