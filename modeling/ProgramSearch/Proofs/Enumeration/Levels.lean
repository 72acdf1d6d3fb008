import Mathlib.Data.List.Infix
import ProgramSearch.Enumeration.Levels

namespace ProgramSearch
namespace Grammar

/-!
# One sequence behind all levels

The levels below any number are a beginning of one sequence, finite or infinite.  A
worklist that has been followed from the start symbol on is a beginning of it too: the
sketches taken so far and the sketches waiting.  Once nothing waits, the sketches taken
are the whole sequence.
-/

universe u

variable {V : Type u}

/-- Levels one after another are the start symbol and the rewritings of the levels
before the last. -/
theorem levelsBelow_succ_eq_cons (grammar : Grammar) (count : Nat) :
    (grammar.levelsBelow (count + 1) : List (Tree V)) =
      Tree.leaf grammar.start ::
        (grammar.levelsBelow count).flatMap (Tree.rewrites grammar) := by
  induction count with
  | zero => rfl
  | succ count ih =>
      calc (grammar.levelsBelow (count + 1 + 1) : List (Tree V))
          = grammar.levelsBelow (count + 1) ++ grammar.level (count + 1) :=
            levelsBelow_succ grammar (count + 1)
        _ = Tree.leaf grammar.start ::
              (grammar.levelsBelow count ++ grammar.level count).flatMap
                (Tree.rewrites grammar) := by
            rw [ih, level, List.cons_append, List.flatMap_append]
        _ = Tree.leaf grammar.start ::
              (grammar.levelsBelow (count + 1)).flatMap (Tree.rewrites grammar) := by
            rw [levelsBelow_succ grammar count]

theorem levelsBelow_prefix (grammar : Grammar) {fewer more : Nat} (le : fewer ≤ more) :
    (grammar.levelsBelow fewer : List (Tree V)) <+: grammar.levelsBelow more := by
  induction le with
  | refl => exact List.prefix_refl _
  | step _ ih =>
      rw [levelsBelow_succ]
      exact ih.trans (List.prefix_append _ _)

/-- A level without sketches is followed by such levels only. -/
theorem level_eq_nil_of_le {grammar : Grammar} {dry later : Nat}
    (nothing : (grammar.level dry : List (Tree V)) = []) (le : dry ≤ later) :
    (grammar.level later : List (Tree V)) = [] := by
  induction le with
  | refl => exact nothing
  | step _ ih => rw [level, ih, List.flatMap_nil]

theorem levelsBelow_eq_of_dry {grammar : Grammar} {dry later : Nat}
    (nothing : (grammar.level dry : List (Tree V)) = []) (le : dry ≤ later) :
    (grammar.levelsBelow later : List (Tree V)) = grammar.levelsBelow dry := by
  induction le with
  | refl => rfl
  | step further ih =>
      rw [levelsBelow_succ, ih, level_eq_nil_of_le nothing further, List.append_nil]

/-- Every level holds a sketch, up to the first level that does not. -/
theorem le_length_levelsBelow (grammar : Grammar) (count : Nat)
    (alive : ∀ earlier < count, (grammar.level earlier : List (Tree V)) ≠ []) :
    count ≤ (grammar.levelsBelow count : List (Tree V)).length := by
  induction count with
  | zero => exact Nat.zero_le _
  | succ count ih =>
      have before := ih fun earlier less => alive earlier (Nat.lt_succ_of_lt less)
      have here := List.length_pos_iff.mpr (alive count (Nat.lt_succ_self count))
      rw [levelsBelow_succ, List.length_append]
      omega

/-- Fewer sketches than levels are all the sketches there are. -/
theorem levelsBelow_eq_of_short {grammar : Grammar} {count later : Nat}
    (short : (grammar.levelsBelow count : List (Tree V)).length < count)
    (le : count ≤ later) :
    (grammar.levelsBelow later : List (Tree V)) = grammar.levelsBelow count := by
  have dried : ∃ dry < count, (grammar.level dry : List (Tree V)) = [] := by
    by_contra alive
    have enough := le_length_levelsBelow grammar count fun earlier before nothing =>
      alive ⟨earlier, before, nothing⟩
    exact absurd enough (Nat.not_le_of_lt short)
  rcases dried with ⟨dry, before, nothing⟩
  have least := Nat.le_of_lt before
  rw [levelsBelow_eq_of_dry nothing least,
    levelsBelow_eq_of_dry nothing (Nat.le_trans least le)]

theorem length_levelsBelow_le_sketchCount (grammar : Grammar) (count : Nat) :
    ((grammar.levelsBelow count : List (Tree V)).length : ℕ∞) ≤ grammar.sketchCount V :=
  le_iSup (fun count => ((grammar.levelsBelow count : List (Tree V)).length : ℕ∞)) count

/-- A beginning of the levels is told apart from others by its length alone. -/
theorem eq_firstSketches_of_prefix {grammar : Grammar} {sketches : List (Tree V)}
    {count : Nat} (early : sketches <+: grammar.levelsBelow count) :
    sketches = grammar.firstSketches sketches.length := by
  have enough : sketches.length ≤
      (grammar.levelsBelow sketches.length : List (Tree V)).length := by
    by_contra short
    have least := levelsBelow_eq_of_short (Nat.lt_of_not_le short)
      (Nat.le_max_right count sketches.length)
    have within := (early.trans (grammar.levelsBelow_prefix
      (Nat.le_max_left count sketches.length))).length_le
    rw [least] at within
    exact short within
  have here := early.trans
    (grammar.levelsBelow_prefix (Nat.le_max_left count sketches.length))
  have there := (List.take_prefix sketches.length _).trans
    (grammar.levelsBelow_prefix (V := V) (Nat.le_max_right count sketches.length))
  have same : (grammar.firstSketches sketches.length : List (Tree V)).length =
      sketches.length := by
    rw [firstSketches, List.length_take]
    omega
  exact (List.prefix_of_prefix_length_le here there (Nat.le_of_eq same.symm)).eq_of_length
    same.symm

theorem firstSketches_prefix (grammar : Grammar) (count : Nat) :
    (grammar.firstSketches count : List (Tree V)) <+: grammar.levelsBelow count :=
  List.take_prefix _ _

/-- As many first sketches are there as were asked for, unless the levels hold fewer. -/
theorem length_firstSketches (grammar : Grammar) (count : Nat) :
    ((grammar.firstSketches count : List (Tree V)).length : ℕ∞) =
      min (count : ℕ∞) (grammar.sketchCount V) := by
  rw [firstSketches, List.length_take]
  by_cases short : (grammar.levelsBelow count : List (Tree V)).length < count
  · have all : grammar.sketchCount V =
        ((grammar.levelsBelow count : List (Tree V)).length : ℕ∞) := by
      apply le_antisymm
      · apply iSup_le
        intro other
        rcases Nat.le_total count other with le | le
        · rw [levelsBelow_eq_of_short short le]
        · exact_mod_cast (grammar.levelsBelow_prefix le).length_le
      · exact grammar.length_levelsBelow_le_sketchCount count
    rw [all]
    norm_cast
  · have enough := Nat.le_of_not_lt short
    have many : (count : ℕ∞) ≤ grammar.sketchCount V :=
      le_trans (by exact_mod_cast enough) (grammar.length_levelsBelow_le_sketchCount count)
    rw [min_eq_left many, Nat.min_eq_left enough]

/-- More first sketches begin with fewer. -/
theorem firstSketches_prefix_of_le (grammar : Grammar) {fewer more : Nat}
    (le : fewer ≤ more) :
    (grammar.firstSketches fewer : List (Tree V)) <+: grammar.firstSketches more := by
  have here := (grammar.firstSketches_prefix (V := V) fewer).trans
    (grammar.levelsBelow_prefix le)
  have there := grammar.firstSketches_prefix (V := V) more
  apply List.prefix_of_prefix_length_le here there
  have shorter : min (fewer : ℕ∞) (grammar.sketchCount V) ≤
      min (more : ℕ∞) (grammar.sketchCount V) :=
    min_le_min_right _ (by exact_mod_cast le)
  rw [← length_firstSketches, ← length_firstSketches] at shorter
  exact_mod_cast shorter

/-- Levels that hold no more sketches than asked for are among the first sketches. -/
theorem levelsBelow_prefix_firstSketches (grammar : Grammar) {count limit : Nat}
    (enough : (grammar.levelsBelow count : List (Tree V)).length ≤ limit) :
    (grammar.levelsBelow count : List (Tree V)) <+: grammar.firstSketches limit := by
  have begun := eq_firstSketches_of_prefix
    (List.prefix_refl (grammar.levelsBelow count : List (Tree V)))
  rw [begun]
  exact grammar.firstSketches_prefix_of_le enough

/-- The sketches taken from a worklist and those still waiting, when every sketch taken
has been replaced by its rewritings at the end. -/
structure Follows (grammar : Grammar) (taken waiting : List (Tree V)) : Prop where
  balanced : taken ++ waiting =
    Tree.leaf grammar.start :: taken.flatMap (Tree.rewrites grammar)
  early : ∃ count, taken ++ waiting <+: grammar.levelsBelow count

namespace Follows

variable {grammar : Grammar} {taken waiting : List (Tree V)}

theorem start (grammar : Grammar) :
    grammar.Follows [] [(Tree.leaf grammar.start : Tree V)] where
  balanced := rfl
  early := ⟨1, List.prefix_refl _⟩

/-- Taking one more sketch. -/
theorem take {sketch : Tree V} (follows : grammar.Follows taken (sketch :: waiting)) :
    grammar.Follows (taken ++ [sketch]) (waiting ++ sketch.rewrites grammar) := by
  have balanced : (taken ++ [sketch]) ++ (waiting ++ sketch.rewrites grammar) =
      Tree.leaf grammar.start :: (taken ++ [sketch]).flatMap (Tree.rewrites grammar) := by
    rw [List.flatMap_append, List.flatMap_singleton, ← List.cons_append,
      ← follows.balanced]
    simp only [List.append_assoc, List.cons_append, List.nil_append]
  rcases follows.early with ⟨count, early⟩
  refine ⟨balanced, count + 1, ?_⟩
  have begun : taken ++ [sketch] <+: grammar.levelsBelow count := by
    refine List.IsPrefix.trans ?_ early
    exact List.prefix_append_right_inj taken |>.mpr (by simp)
  rw [balanced, levelsBelow_succ_eq_cons]
  exact List.cons_prefix_cons.mpr ⟨rfl, begun.flatMap _⟩

theorem eq_firstSketches (follows : grammar.Follows taken waiting) :
    taken ++ waiting = grammar.firstSketches (taken.length + waiting.length) := by
  rcases follows.early with ⟨count, early⟩
  rw [← List.length_append]
  exact eq_firstSketches_of_prefix early

/-- With nothing waiting, every level has been taken. -/
theorem levelsBelow_prefix_taken (follows : grammar.Follows taken []) (count : Nat) :
    grammar.levelsBelow count <+: taken := by
  have closed := follows.balanced
  rw [List.append_nil] at closed
  induction count with
  | zero => exact List.nil_prefix
  | succ count ih =>
      rw [closed, levelsBelow_succ_eq_cons]
      exact List.cons_prefix_cons.mpr ⟨rfl, ih.flatMap _⟩

end Follows

end Grammar
end ProgramSearch
