import ProgramSearch.Proofs.Search.FirstMatch
import ProgramSearch.Proofs.Search.Smallest

namespace ProgramSearch

/-!
# When a program is found, and which one

The program found stands behind the candidates that decide nothing, so all programs with
fewer inner nodes have been passed over.  In a language none of whose programs fails fatally
nothing else can happen: a synthesis finds a program or ends with all candidates passed over,
and so it finds one whenever some solution is among them.
-/

universe u

variable {V : Type u}

namespace Enumeration

variable {signals : Signals}

/-- As many calls as there are first candidates hand out just these. -/
theorem shownDuring_of_split {state : Enumeration V} {earlier later : List (Tree V)}
    (candidates : (state.drain signals).1 = earlier ++ later) :
    state.shownDuring (List.replicate earlier.length signals) = earlier := by
  induction earlier generalizing state with
  | nil => rfl
  | cons first earlier ih =>
      rcases next?_of_drain_eq_cons candidates with ⟨shown, rest⟩
      rw [List.length_cons, List.replicate_succ, shownDuring_cons, shown,
        ih (congrArg Prod.fst rest)]
      rfl

/-- Programs with fewer inner nodes than a candidate stand before it. -/
theorem mem_earlier_of_innerCount_lt {problem : Problem V} {earlier later : List (Tree V)}
    {program smaller : Tree V}
    (candidates : ((start problem).drain signals).1 = earlier ++ program :: later)
    (isProgram : problem.grammar.IsProgram problem.filler problem.sample smaller)
    (fewer : smaller.innerCount < program.innerCount) : smaller ∈ earlier := by
  have candidates' : ((start problem).drain signals).1 = (earlier ++ [program]) ++ later := by
    rw [candidates, List.append_assoc, List.singleton_append]
  have reached := reached_run problem (List.replicate (earlier ++ [program]).length signals)
  rw [shownDuring_of_split candidates'] at reached
  have shown := reached.mem_shown_of_innerCount_lt
    (List.mem_append_right _ List.mem_cons_self) isProgram fewer
  rcases List.mem_append.mp shown with before | only
  · exact before
  · rw [List.mem_singleton.mp only] at fewer
    exact absurd fewer (Nat.lt_irrefl _)

end Enumeration

namespace Synthesizer

variable (synthesizer : Synthesizer V) (sample : Sample V)

/-- No program fails for want of a literal or of an argument. -/
def NeverFatal : Prop :=
  ∀ program,
    synthesizer.language.grammar.IsProgram synthesizer.language.filler sample program →
      ∀ error, synthesizer.language.evaluate program ⟨sample.inputs⟩ = .error error →
        error.isFatal = false

variable {synthesizer sample} {signals : Signals}

theorem isProgram_of_split {earlier later : List (Tree V)} {program : Tree V}
    (candidates : ((synthesizer.enumerate sample).drain signals).1 =
      earlier ++ program :: later) :
    synthesizer.language.grammar.IsProgram synthesizer.language.filler sample program := by
  rcases Enumeration.reached_drain signals (synthesizer.problem sample) with ⟨taken, reached, _⟩
  rw [enumerate] at candidates
  rw [candidates] at reached
  exact reached.isProgram (List.mem_append_right _ List.mem_cons_self)

variable [DecidableEq V]

/-- A program that has been found stands behind candidates that decide nothing. -/
theorem exists_split_of_found {program : Tree V} {explored : Nat}
    (found : synthesizer.synthesize signals sample = .ok (.found program explored)) :
    ∃ earlier later,
      ((synthesizer.enumerate sample).drain signals).1 = earlier ++ program :: later ∧
        synthesizer.IsSolution sample program ∧
          ∀ other ∈ earlier, ¬ IsDecisive synthesizer.language.evaluate sample other := by
  let search := synthesizer.search sample
  have ran := run_of_synthesize found
  rcases exists_first_decisive search.evaluate sample (search.enumeration.drain signals).1 with
    none | ⟨earlier, candidate, later, candidates, decisive, passed⟩
  · rw [search.run_eq_exhausted none] at ran
    cases ran
  · rcases (isDecisive_iff _ _ _).mp decisive with value | ⟨failure, failed, fatal⟩
    · rw [search.run_eq_found candidates passed value] at ran
      cases ran
      exact ⟨earlier, later, candidates,
        ⟨isProgram_of_split candidates, value⟩, passed⟩
    · rw [search.run_eq_error candidates passed failed fatal] at ran
      cases ran

section NeverFatal

variable (mild : synthesizer.NeverFatal sample)

include mild

/-- Where nothing is fatal, a synthesis finds a program or passes over all candidates. -/
theorem found_or_exhausted (signals : Signals) :
    (∃ program explored,
        synthesizer.synthesize signals sample = .ok (.found program explored)) ∨
      (∃ explored reason,
        synthesizer.synthesize signals sample = .ok (.exhausted explored reason)) ∧
        ∀ candidate ∈ ((synthesizer.enumerate sample).drain signals).1,
          ¬ IsDecisive synthesizer.language.evaluate sample candidate := by
  let search := synthesizer.search sample
  rcases exists_first_decisive search.evaluate sample (search.enumeration.drain signals).1 with
    none | ⟨earlier, candidate, later, candidates, decisive, passed⟩
  · exact Or.inr ⟨⟨_, _, synthesize_of_run (search.run_eq_exhausted none)⟩, none⟩
  · rcases (isDecisive_iff _ _ _).mp decisive with value | ⟨failure, failed, fatal⟩
    · exact Or.inl ⟨_, _, synthesize_of_run (search.run_eq_found candidates passed value)⟩
    · have harmless := mild candidate (isProgram_of_split candidates) failure failed
      rw [fatal] at harmless
      cases harmless

theorem synthesize_ne_error (error : SynthesisError) :
    synthesizer.synthesize signals sample ≠ .error error := by
  rcases found_or_exhausted mild signals with ⟨_, _, found⟩ | ⟨⟨_, _, exhausted⟩, _⟩
  · rw [found]
    simp
  · rw [exhausted]
    simp

/-- No step reports an error, under any schedule of signals. -/
theorem ok_of_mem_reports {calls : List Signals}
    {report : Except EvalError (Option (Verdict V))}
    (member : report ∈ (synthesizer.search sample).reports calls) :
    ∃ verdict, report = .ok verdict := by
  have handled := (synthesizer.search sample).handled_reports calls
  rcases Tree.exists_of_mem_forall₂ handled member with ⟨answer, among, reported⟩
  cases reported with
  | ended => exact ⟨none, rfl⟩
  | reported => exact ⟨_, rfl⟩
  | @consumed candidate failure judged =>
      cases judged with
      | aborted failed fatal =>
          have isProgram := (Enumeration.reached_run (synthesizer.problem sample) calls).isProgram
            (List.reduceOption_mem_iff.mpr among)
          rw [mild candidate isProgram failure failed] at fatal
          cases fatal

/-- A solution among the first levels is enough for a program to be found. -/
theorem exists_found_of_isSolution {solution : Tree V}
    (right : synthesizer.IsSolution sample solution)
    (enough : (synthesizer.language.grammar.levelsBelow (solution.innerCount + 1) :
      List (Tree V)).length ≤ synthesizer.budget.limit)
    (quiet : synthesizer.budget.isCancelled signals = false) :
    ∃ program explored,
      synthesizer.synthesize signals sample = .ok (.found program explored) := by
  rcases found_or_exhausted mild signals with found | ⟨_, passed⟩
  · exact found
  · have among : solution ∈ ((synthesizer.enumerate sample).drain signals).1 := by
      rw [enumerate, Enumeration.drain_eq_flatMap signals (synthesizer.problem sample) quiet,
        List.mem_flatMap]
      refine ⟨solution.skeleton, ?_, Enumeration.mem_completions_skeleton right.isProgram⟩
      apply (synthesizer.language.grammar.levelsBelow_prefix_firstSketches enough).subset
      exact Enumeration.skeleton_mem_levelsBelow right.isProgram
    exact absurd (Or.inl right.correct) (passed solution among)

end NeverFatal

end Synthesizer

end ProgramSearch
