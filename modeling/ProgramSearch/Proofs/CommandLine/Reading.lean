import ProgramSearch.CommandLine.Arguments

namespace ProgramSearch
namespace CommandLine

/-!
# What a command line asks for

A command line that asks for the arithmetic supplies constants: those given, or the standard
ones.
-/

section Except

variable {E A B : Type} {first : Except E A} {result : B}

theorem exists_of_bind_eq_ok {rest : A → Except E B} (done : (first >>= rest) = .ok result) :
    ∃ value, first = .ok value ∧ rest value = .ok result := by
  cases first with
  | error failure => cases done
  | ok value => exact ⟨value, rfl, done⟩

theorem exists_of_map_eq_ok {change : A → B} (done : first.map change = .ok result) :
    ∃ value, first = .ok value ∧ change value = result := by
  cases first with
  | error failure => cases done
  | ok value =>
      cases done
      exact ⟨value, rfl, rfl⟩

end Except

/-- The command asks for something else, or there are constants. -/
def Command.HasConstants : Command → Prop
  | .arithmetic _ _ constants _ => constants ≠ []
  | .query => True

theorem hasConstants_of_readArithmetic {words : List String} {command : Command}
    (read : readArithmetic words = .ok command) : command.HasConstants := by
  rcases exists_of_bind_eq_ok read with ⟨options, _, answered⟩
  cases given : options.output with
  | none =>
      rw [given] at answered
      cases answered
  | some output =>
      rw [given] at answered
      cases answered
      rw [Command.HasConstants]
      split
      · exact List.cons_ne_nil _ _
      · rename_i present
        exact fun none => present (List.isEmpty_iff.mpr none)

theorem hasConstants_of_readQuery {words : List String} {command : Command}
    (read : readQuery words = .ok command) : command.HasConstants := by
  unfold readQuery at read
  split at read <;> cases read <;> trivial

/-- Every command line that is accepted supplies constants. -/
theorem hasConstants_of_readFrom {verbosity : Nat} {budget : Option Nat} {words : List String}
    {invocation : Invocation} (read : readFrom verbosity budget words = .ok invocation) :
    invocation.command.HasConstants := by
  fun_induction readFrom verbosity budget words with
  | case1 | case7 | case9 => cases read
  | case2 =>
      rcases exists_of_map_eq_ok read with ⟨command, accepted, rfl⟩
      exact hasConstants_of_readArithmetic accepted
  | case3 =>
      rcases exists_of_map_eq_ok read with ⟨command, accepted, rfl⟩
      exact hasConstants_of_readQuery accepted
  | case4 | case5 =>
      -- An option that asks for more messages changes nothing of the command.
      rename_i ih
      exact ih read
  | case6 | case8 =>
      rename_i ih
      rcases exists_of_bind_eq_ok read with ⟨count, _, further⟩
      rcases exists_of_bind_eq_ok further with ⟨bound, _, rest⟩
      exact ih bound rest

theorem constants_ne_nil_of_read {words : List String} {invocation : Invocation}
    (accepted : read words = .ok invocation) {output : Int64} {inputs constants : List Int64}
    {enumerate : Option Nat}
    (asked : invocation.command = .arithmetic output inputs constants enumerate) :
    constants ≠ [] := by
  have supplied := hasConstants_of_readFrom accepted
  rw [asked] at supplied
  exact supplied

end CommandLine
end ProgramSearch
