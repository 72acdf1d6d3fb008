import ProgramSearch.Proofs.Enumeration.Completeness
import ProgramSearch.Proofs.Enumeration.Soundness
import ProgramSearch.Proofs.Grammar.Marking
import ProgramSearch.Search

namespace ProgramSearch
namespace Enumeration

/-!
# A grammar is valid when its enumeration has a candidate

Validation looks at the rules and an enumeration at trees, yet they agree on every grammar
without foreign symbols: the grammar is valid exactly when some budget is enough for a first
program.  The literals offered make no difference, since every hole has some completion.
-/

universe u

variable {V : Type u}

/-- Within some budget an enumeration that is never cancelled hands out a program. -/
def HasCandidate (grammar : Grammar) (filler : Filler V) (sample : Sample V) : Prop :=
  ∃ (budget : Budget) (calls : List Signals) (program : Tree V),
    (∀ signals ∈ calls, budget.isCancelled signals = false) ∧
      some program ∈ (start (Problem.mk grammar filler sample budget)).answers calls

section Candidate

variable {grammar : Grammar} {filler : Filler V} {sample : Sample V}

theorem hasCandidate_of_isProgram {program : Tree V}
    (isProgram : grammar.IsProgram filler sample program) :
    HasCandidate grammar filler sample := by
  let levels : List (Tree V) := grammar.levelsBelow (program.innerCount + 1)
  let problem := Problem.mk grammar filler sample (Budget.ofLimit levels.length)
  let programs := (grammar.firstSketches levels.length).flatMap problem.completions
  let calls := List.replicate (programs.length + 1) Signals.none
  refine ⟨Budget.ofLimit levels.length, calls, program, fun _ _ => rfl, ?_⟩
  have ended : none ∈ (start problem).answers calls := by
    apply none_mem_answers
    rw [List.length_replicate]
    exact Nat.lt_succ_self _
  have shown := shownDuring_eq_of_none_mem problem calls (fun _ _ => rfl) ended
  have among : program.skeleton ∈ grammar.firstSketches levels.length :=
    (grammar.levelsBelow_prefix_firstSketches (Nat.le_refl _)).subset
      (skeleton_mem_levelsBelow isProgram)
  have handed : program ∈ (start problem).shownDuring calls := by
    rw [shown]
    exact List.mem_flatMap.mpr ⟨_, among, mem_completions_skeleton isProgram⟩
  exact List.reduceOption_mem_iff.mp handed

/-- Every program handed out is derived from a settled start symbol. -/
theorem settled_of_mem_answers (headed : ∀ symbol, grammar.alternatives symbol ≠ [] →
      symbol ∈ grammar.heads) {budget : Budget} {calls : List Signals} {program : Tree V}
    (answered : some program ∈
      (start (Problem.mk grammar filler sample budget)).answers calls) :
    grammar.settled grammar.productiveHeads grammar.start = true := by
  have isProgram := (reached_run _ calls).isProgram (List.reduceOption_mem_iff.mpr answered)
  rw [← isProgram.root]
  exact Grammar.settled_of_derived headed isProgram.derived isProgram.terminal

/-- A start symbol is settled exactly when some budget is enough for a candidate. -/
theorem settled_start_iff_hasCandidate (filler : Filler V) (sample : Sample V)
    (headed : ∀ symbol, grammar.alternatives symbol ≠ [] → symbol ∈ grammar.heads) :
    grammar.settled grammar.productiveHeads grammar.start = true ↔
      HasCandidate grammar filler sample := by
  constructor
  · intro settled
    rcases Grammar.exists_completed_of_settled filler sample settled with
      ⟨program, root, completed⟩
    exact hasCandidate_of_isProgram ⟨root, completed.filled.derived, completed.terminal,
      completed.filled.carried⟩
  · rintro ⟨budget, calls, program, _, answered⟩
    exact settled_of_mem_answers headed answered

end Candidate

/-- Validation agrees with the enumeration, for any grammar under construction without a
foreign symbol in a rule and whatever literals are offered.  A grammar refused for its start
symbol yields nothing under any budget and any signals, and one accepted for synthesis has a
candidate. -/
theorem validate_agrees (identity : Nat) (startName : String) (steps : List GrammarStep)
    (own : ∀ name, (Grammar.build identity startName steps).validate ≠
      .error (.foreignSymbol name))
    (filler : Filler V) (sample : Sample V) :
    let grammar := Grammar.build identity startName steps
    (grammar.validate = .ok () ↔ HasCandidate grammar filler sample) ∧
      (∀ name, grammar.validate = .error (.noProductions name) ∨
          grammar.validate = .error (.unproductive name) →
        ∀ (budget : Budget) (calls : List Signals),
          ∀ answer ∈ (start (Problem.mk grammar filler sample budget)).answers calls,
            answer = none) ∧
      ∀ (language : Language V) (budget : Budget) (synthesizer : Synthesizer V),
        language.grammar = grammar → Synthesizer.create language budget = .ok synthesizer →
          HasCandidate grammar filler sample := by
  intro grammar
  have headed : ∀ symbol, grammar.alternatives symbol ≠ [] → symbol ∈ grammar.heads :=
    fun symbol => (Grammar.mem_heads_build identity startName steps symbol).mpr
  have owned : ∀ head ∈ grammar.heads, grammar.owns head = true :=
    Grammar.owns_of_mem_heads_build
  have valid := Grammar.validate_eq_ok_iff owned own
  have agree := valid.trans (settled_start_iff_hasCandidate filler sample headed)
  refine ⟨agree, ?_, ?_⟩
  · intro name refused budget calls answer member
    by_contra some
    rcases Option.ne_none_iff_exists'.mp some with ⟨program, rfl⟩
    have accepted := valid.mpr (settled_of_mem_answers headed member)
    rw [accepted] at refused
    rcases refused with impossible | impossible <;> cases impossible
  · intro language budget synthesizer same created
    rcases (Synthesizer.create_eq_ok_iff language budget synthesizer).mp created with ⟨rfl, rfl⟩
    rw [← same] at agree ⊢
    exact agree.mp synthesizer.valid

/-- A start symbol that stands for nothing, for itself and for a terminal has a candidate,
and without the terminal it is refused and has none. -/
theorem validate_agrees_looping :
    ((∀ name, Grammar.looping.validate ≠ .error (.foreignSymbol name)) ∧
      Grammar.looping.validate = .ok () ∧
      HasCandidate Grammar.looping (fun _ _ => [1, 2]) ⟨3, []⟩) ∧
    (∀ name, Grammar.endless.validate ≠ .error (.foreignSymbol name)) ∧
      Grammar.endless.validate = .error (.unproductive "e") ∧
      ¬ HasCandidate Grammar.endless (fun _ _ => [1, 2]) ⟨3, []⟩ := by
  have valid : Grammar.looping.validate = .ok () := by decide
  have refused : Grammar.endless.validate = .error (.unproductive "e") := by decide
  have own : ∀ name, Grammar.looping.validate ≠ .error (.foreignSymbol name) := by
    intro name
    rw [valid]
    simp
  have own' : ∀ name, Grammar.endless.validate ≠ .error (.foreignSymbol name) := by
    intro name
    rw [refused]
    simp
  refine ⟨⟨own, valid, ?_⟩, own', refused, ?_⟩
  · exact (validate_agrees 0 "e" _ own (fun _ _ => [1, 2]) ⟨3, []⟩).1.mp valid
  · intro candidate
    have accepted :=
      (validate_agrees 0 "e" _ own' (fun _ _ => [1, 2]) ⟨3, []⟩).1.mpr candidate
    change Grammar.endless.validate = .ok () at accepted
    rw [refused] at accepted
    cases accepted

end Enumeration
end ProgramSearch
