import Mathlib.Algebra.BigOperators.Ring.List
import Mathlib.Algebra.GroupWithZero.Nat
import Mathlib.Data.List.Forall2
import ProgramSearch.Odometer.Position
import ProgramSearch.Proofs.Odometer.Order

namespace ProgramSearch

/-!
# Turning the digits counts by one

Turning the first digit with room, and resetting those before it, adds one to the number that
the digits write.  An odometer is therefore told by its position alone: it shows the digits of
its position and moves on by one, and behind the last number it stays for good.  Whatever is
asked of a fleet of odometers, it answers as the fleet of their positions does.
-/

namespace Odometer

section Numeral

variable {radix : Nat} {radices : List Nat}

theorem numeral_cons (number : Nat) :
    numeral (radix :: radices) number = number % radix :: numeral radices (number / radix) := by
  simp [numeral, List.mapIdx_cons, Nat.div_div_eq_div_mul]

theorem numeral_zero : numeral radices 0 = List.replicate radices.length 0 := by
  induction radices with
  | nil => rfl
  | cons radix radices ih =>
      rw [numeral_cons, Nat.zero_mod, Nat.zero_div, ih, List.length_cons, List.replicate_succ]

/-- The digits of a number that fits are below their radices. -/
theorem numeral_lt {number : Nat} (fits : number < radices.prod) :
    List.Forall₂ (· < ·) (numeral radices number) radices := by
  induction radices generalizing number with
  | nil => exact .nil
  | cons radix radices ih =>
      rw [List.prod_cons] at fits
      have positive : 0 < radix := Nat.pos_of_mul_pos_right (Nat.zero_lt_of_lt fits)
      rw [numeral_cons]
      exact .cons (Nat.mod_lt _ positive) (ih (Nat.div_lt_of_lt_mul fits))

/-- The next digits are those of the next number, as long as it fits. -/
theorem successor_numeral {number : Nat} (fits : number < radices.prod) :
    successor radices (numeral radices number) =
      if number + 1 < radices.prod then some (numeral radices (number + 1)) else none := by
  induction radices generalizing number with
  | nil =>
      rw [List.prod_nil] at fits ⊢
      rw [if_neg (by omega)]
      rfl
  | cons radix radices ih =>
      rw [List.prod_cons] at fits
      have positive : 0 < radix := Nat.pos_of_mul_pos_right (Nat.zero_lt_of_lt fits)
      have later : number / radix < radices.prod := Nat.div_lt_of_lt_mul fits
      have whole : radix * (number / radix) + number % radix = number :=
        Nat.div_add_mod number radix
      rw [numeral_cons, successor, List.prod_cons]
      by_cases room : number % radix + 1 < radix
      · -- Only the first digit turns.
        have next : number + 1 = radix * (number / radix) + (number % radix + 1) := by omega
        have same : (number + 1) / radix = number / radix := by
          rw [next, Nat.mul_add_div positive, Nat.div_eq_of_lt room, Nat.add_zero]
        have turned : (number + 1) % radix = number % radix + 1 := by
          rw [next, Nat.mul_add_mod, Nat.mod_eq_of_lt room]
        have still : number + 1 < radix * radices.prod := by
          calc number + 1 < radix * (number / radix) + radix := by omega
            _ = radix * (number / radix + 1) := (Nat.mul_succ _ _).symm
            _ ≤ radix * radices.prod := Nat.mul_le_mul_left _ later
        rw [if_pos room, if_pos still, numeral_cons, same, turned]
      · -- The first digit starts again and the others turn.
        have next : number + 1 = radix * (number / radix + 1) := by
          have last := Nat.mod_lt number positive
          rw [Nat.mul_succ]
          omega
        have carried : (number + 1) / radix = number / radix + 1 := by
          rw [next, Nat.mul_div_cancel_left _ positive]
        have reset : (number + 1) % radix = 0 := by
          rw [next, Nat.mul_mod_right]
        have fits_iff : number + 1 < radix * radices.prod ↔
            number / radix + 1 < radices.prod := by
          rw [next]
          exact Nat.mul_lt_mul_left positive
        rw [if_neg room, ih later]
        by_cases still : number / radix + 1 < radices.prod
        · rw [if_pos still, if_pos (fits_iff.mpr still), Option.map_some, numeral_cons, carried,
            reset]
        · rw [if_neg still, if_neg fun fits => still (fits_iff.mp fits), Option.map_none]

end Numeral

section Position

variable {radices : List Nat} {position : Nat}

theorem ofRadices_eq_atPosition (radices : List Nat) :
    ofRadices radices = atPosition radices 0 := by
  rw [ofRadices, atPosition, numeral_zero]
  by_cases stuck : 0 ∈ radices
  · have none : radices.prod = 0 := List.prod_eq_zero stuck
    rw [if_pos stuck, none, if_neg (Nat.lt_irrefl 0)]
  · have positive : 0 < radices.prod := by
      apply Nat.pos_of_ne_zero
      intro none
      exact stuck (List.prod_eq_zero_iff.mp none)
    rw [if_neg stuck, if_pos positive]

theorem next?_atPosition (fits : position < radices.prod) :
    (atPosition radices position).next? =
      some (numeral radices position, atPosition radices (position + 1)) := by
  rw [next?, atPosition, if_pos fits, Option.map_some, successor_numeral fits, atPosition]

theorem next?_atPosition_of_le (done : radices.prod ≤ position) :
    (atPosition radices position).next? = none := by
  rw [next?, atPosition, if_neg (Nat.not_lt_of_le done), Option.map_none]

/-- Vectors are passed over up to the last. -/
theorem drop_atPosition (le : position ≤ radices.prod) (count : Nat) :
    (atPosition radices position).drop count =
      atPosition radices (min (position + count) radices.prod) := by
  induction count generalizing position with
  | zero => rw [drop, Nat.add_zero, Nat.min_eq_left le]
  | succ count ih =>
      rw [drop]
      rcases Nat.lt_or_ge position radices.prod with fits | done
      · rw [next?_atPosition fits]
        change (atPosition radices (position + 1)).drop count = _
        rw [ih fits, Nat.succ_eq_add_one, Nat.add_right_comm, Nat.add_assoc]
      · rw [next?_atPosition_of_le done]
        change atPosition radices position = _
        rw [Nat.min_eq_right (Nat.le_trans done (Nat.le_add_right _ _)),
          Nat.le_antisymm le done]

/-- An odometer answers as its position does, and then stands where that does. -/
theorem nth_atPosition (le : position ≤ radices.prod) (count : Nat) :
    (atPosition radices position).nth count =
      ((Counter.skip radices count position).1,
        atPosition radices (Counter.skip radices count position).2) := by
  rw [nth, drop_atPosition le, Counter.skip]
  by_cases fits : position + count < radices.prod
  · rw [Nat.min_eq_left (Nat.le_of_lt fits), next?_atPosition fits, if_pos fits]
  · rw [Nat.min_eq_right (Nat.le_of_not_lt fits), next?_atPosition_of_le (Nat.le_refl _),
      if_neg fits]

theorem skip_le (radices : List Nat) (count position : Nat) :
    (Counter.skip radices count position).2 ≤ radices.prod := by
  rw [Counter.skip]
  split
  · assumption
  · exact Nat.le_refl _

/-- An odometer that has shown a number of vectors stands at that position. -/
theorem hasShown_iff {odometer : Odometer} :
    HasShown radices position odometer ↔
      position ≤ radices.prod ∧ odometer = atPosition radices position := by
  constructor
  · intro shown
    induction shown with
    | start => exact ⟨Nat.zero_le _, ofRadices_eq_atPosition radices⟩
    | @next position odometer rest digits _ next ih =>
        rcases ih with ⟨_, rfl⟩
        rcases Nat.lt_or_ge position radices.prod with fits | done
        · rw [next?_atPosition fits, Option.some.injEq, Prod.mk.injEq] at next
          exact ⟨fits, next.2.symm⟩
        · rw [next?_atPosition_of_le done] at next
          cases next
  · rintro ⟨le, rfl⟩
    induction position with
    | zero =>
        rw [← ofRadices_eq_atPosition]
        exact .start
    | succ position ih =>
        exact .next (ih (Nat.le_of_succ_le le)) (next?_atPosition le)

/-- What is left to show are the digits of the numbers from the position on. -/
theorem toList_atPosition (le : position ≤ radices.prod) :
    (atPosition radices position).toList =
      (List.range' position (radices.prod - position)).map (numeral radices) := by
  induction left : radices.prod - position generalizing position with
  | zero =>
      rw [atPosition, if_neg (by omega), toList_none]
      rfl
  | succ left ih =>
      have fits : position < radices.prod := by omega
      rw [List.range'_succ, List.map_cons, ← ih fits (by omega), atPosition, if_pos fits,
        toList_some, successor_numeral fits, atPosition]

theorem combinations_eq_prod (odometer : Odometer) :
    odometer.combinations = odometer.radices.prod := by
  rw [combinations, List.prod_eq_foldr]

/-- The product computed in words is the product, if all products on the way fit. -/
theorem combinationsInWords?_eq_some {odometer : Odometer}
    (fit : ∀ count, (odometer.radices.take count).prod < UInt64.size) :
    odometer.combinationsInWords? = some odometer.radices.prod := by
  have from_product : ∀ (radices : List Nat) (product : Nat),
      (∀ count, product * (radices.take count).prod < UInt64.size) →
        radices.foldlM (fun product radix =>
          if product * radix < UInt64.size then some (product * radix) else none) product =
            some (product * radices.prod) := by
    intro radices
    induction radices with
    | nil =>
        intro product _
        rw [List.prod_nil, Nat.mul_one]
        rfl
    | cons radix radices ih =>
        intro product fit
        have first : product * radix < UInt64.size := by
          simpa using fit 1
        rw [List.foldlM_cons, if_pos first]
        change radices.foldlM _ (product * radix) = _
        rw [ih, List.prod_cons, Nat.mul_assoc]
        intro count
        simpa [Nat.mul_assoc] using fit (count + 1)
  rw [combinationsInWords?, from_product _ 1 (by simpa using fit), Nat.one_mul]

end Position

end Odometer

namespace Counter

section Related

variable {σ τ : Type} {Related : σ → τ → Prop}

theorem ask_of_related {advance : σ → Option (List Nat) × σ}
    {advance' : τ → Option (List Nat) × τ}
    (alike : ∀ member member', Related member member' →
      (advance member).1 = (advance' member').1 ∧
        Related (advance member).2 (advance' member').2)
    {fleet : List σ} {fleet' : List τ} (related : List.Forall₂ Related fleet fleet')
    (index : Nat) :
    (ask advance index fleet).1 = (ask advance' index fleet').1 ∧
      List.Forall₂ Related (ask advance index fleet).2 (ask advance' index fleet').2 := by
  induction related generalizing index with
  | nil => cases index <;> exact ⟨rfl, .nil⟩
  | @cons member member' fleet fleet' first others ih =>
      cases index with
      | zero =>
          rcases alike member member' first with ⟨same, later⟩
          exact ⟨congrArg some same, .cons later others⟩
      | succ index =>
          rcases ih index with ⟨same, later⟩
          exact ⟨same, .cons first later⟩

/-- Two counters agree along a relation when related members answer alike and stay related. -/
structure Agrees (counter : Counter σ) (counter' : Counter τ) (Related : σ → τ → Prop) :
    Prop where
  next : ∀ member member', Related member member' →
    (counter.next member).1 = (counter'.next member').1 ∧
      Related (counter.next member).2 (counter'.next member').2
  nth : ∀ count member member', Related member member' →
    (counter.nth count member).1 = (counter'.nth count member').1 ∧
      Related (counter.nth count member).2 (counter'.nth count member').2

variable {counter : Counter σ} {counter' : Counter τ}

/-- Fleets of related members answer a step alike, and their members stay related. -/
theorem Agrees.step (agrees : Agrees counter counter' Related) {fleet : List σ}
    {fleet' : List τ} (related : List.Forall₂ Related fleet fleet') (step : FleetStep) :
    (counter.step fleet step).1 = (counter'.step fleet' step).1 ∧
      List.Forall₂ Related (counter.step fleet step).2 (counter'.step fleet' step).2 := by
  cases step with
  | next index => exact ask_of_related agrees.next related index
  | nth index count => exact ask_of_related (agrees.nth count) related index
  | copy index =>
      refine ⟨rfl, List.rel_append related ?_⟩
      induction related generalizing index with
      | nil => exact .nil
      | cons first others ih =>
          cases index with
          | zero => exact .cons first .nil
          | succ index => exact ih index

/-- Fleets of related members answer a sequence of steps alike. -/
theorem Agrees.run (agrees : Agrees counter counter' Related) {fleet : List σ}
    {fleet' : List τ} (related : List.Forall₂ Related fleet fleet') (steps : List FleetStep) :
    counter.answers fleet steps = counter'.answers fleet' steps ∧
      List.Forall₂ Related (counter.after fleet steps) (counter'.after fleet' steps) := by
  induction steps generalizing fleet fleet' with
  | nil => exact ⟨rfl, related⟩
  | cons step steps ih =>
      rcases agrees.step related step with ⟨same, later⟩
      rcases ih later with ⟨others, last⟩
      exact ⟨by rw [answers, answers, same, others], last⟩

end Related

/-- To show the next vector is to pass over none. -/
theorem next_ofOdometer (odometer : Odometer) : ofOdometer.next odometer = odometer.nth 0 := rfl

/-- Odometers agree with their positions. -/
theorem agrees_position (radices : List Nat) :
    Agrees ofOdometer (ofPosition radices) fun odometer position =>
      Odometer.HasShown radices position odometer := by
  have alike : ∀ (count : Nat) (odometer : Odometer) (position : Nat),
      Odometer.HasShown radices position odometer →
        (odometer.nth count).1 = (skip radices count position).1 ∧
          Odometer.HasShown radices (skip radices count position).2 (odometer.nth count).2 := by
    intro count odometer position shown
    rcases Odometer.hasShown_iff.mp shown with ⟨le, rfl⟩
    rw [Odometer.nth_atPosition le]
    exact ⟨rfl, Odometer.hasShown_iff.mpr ⟨Odometer.skip_le radices count position, rfl⟩⟩
  refine ⟨fun odometer position shown => ?_, alike⟩
  rw [next_ofOdometer]
  exact alike 0 odometer position shown

end Counter

namespace Odometer

/-- What can be said of an odometer that stands at a position. -/
structure StandsAt (radices : List Nat) (position : Nat) (odometer : Odometer) : Prop where
  /-- The position is the number of vectors shown or passed over. -/
  hasShown : HasShown radices position odometer
  within : position ≤ radices.prod
  /-- A vector that is left is shown with the digits of its number, and those up to it are
  counted as shown. -/
  shows : ∀ count, position + count < radices.prod → ∃ rest,
    odometer.nth count = (some (numeral radices (position + count)), rest) ∧
      HasShown radices (position + count + 1) rest
  /-- Behind the last vector the odometer stays for ever. -/
  ends : ∀ count, radices.prod ≤ position + count → ∃ rest,
    odometer.nth count = (none, rest) ∧ HasShown radices radices.prod rest ∧
      ∀ further, rest.nth further = (none, rest)
  left : odometer.toList.length = radices.prod - position
  combinations : odometer.combinations = radices.prod
  /-- No product on the way is too large if none of the partial products is. -/
  combinationsInWords : (∀ count, (radices.take count).prod < UInt64.size) →
    odometer.combinationsInWords? = some radices.prod
  /-- Before the end every digit is below its radix. -/
  digits_lt : ∀ digits, odometer.current = some digits → List.Forall₂ (· < ·) digits radices
  /-- No digit of an odometer with radices of 64 bits is too large to be turned. -/
  digits_turn : (∀ radix ∈ radices, radix < UInt64.size) →
    ∀ digits, odometer.current = some digits → ∀ digit ∈ digits, digit + 1 < UInt64.size

/-- A digit below a radix that fits in 64 bits can be turned. -/
theorem turn_of_lt {radices digits : List Nat} (below : List.Forall₂ (· < ·) digits radices)
    (words : ∀ radix ∈ radices, radix < UInt64.size) :
    ∀ digit ∈ digits, digit + 1 < UInt64.size := by
  induction below with
  | nil =>
      intro digit member
      cases member
  | cons less _ ih =>
      rw [List.forall_mem_cons] at words ⊢
      exact ⟨Nat.lt_of_le_of_lt less words.1, ih words.2⟩

theorem standsAt_of_hasShown {radices : List Nat} {position : Nat} {odometer : Odometer}
    (shown : HasShown radices position odometer) : StandsAt radices position odometer := by
  rcases hasShown_iff.mp shown with ⟨le, rfl⟩
  have below : ∀ digits, (atPosition radices position).current = some digits →
      List.Forall₂ (· < ·) digits radices := by
    intro digits present
    rw [atPosition] at present
    split at present
    · rename_i fits
      cases present
      exact numeral_lt fits
    · cases present
  refine
    { hasShown := shown
      within := le
      shows := ?_
      ends := ?_
      left := ?_
      combinations := combinations_eq_prod _
      combinationsInWords := fun fit => combinationsInWords?_eq_some fit
      digits_lt := below
      digits_turn := ?_ }
  · intro count fits
    refine ⟨atPosition radices (position + count + 1), ?_, hasShown_iff.mpr ⟨fits, rfl⟩⟩
    rw [nth_atPosition le, Counter.skip, if_pos fits]
  · intro count past
    refine ⟨atPosition radices radices.prod, ?_, hasShown_iff.mpr ⟨Nat.le_refl _, rfl⟩, ?_⟩
    · rw [nth_atPosition le, Counter.skip, if_neg (Nat.not_lt_of_le past)]
    · intro further
      rw [nth_atPosition (Nat.le_refl _), Counter.skip,
        if_neg (Nat.not_lt_of_le (Nat.le_add_right _ _))]
  · rw [toList_atPosition le, List.length_map, List.length_range']
  · intro words digits present
    exact turn_of_lt (below digits present) words

/-- A fleet of odometers, made from one by copying and used in any order, answers every step as
their positions do, and each of them stands at its position. -/
theorem positional_law (radices : List Nat) (steps : List FleetStep) :
    Counter.ofOdometer.answers [ofRadices radices] steps =
        (Counter.ofPosition radices).answers [0] steps ∧
      List.Forall₂ (StandsAt radices) ((Counter.ofPosition radices).after [0] steps)
        (Counter.ofOdometer.after [ofRadices radices] steps) := by
  have begun : List.Forall₂ (fun odometer position => HasShown radices position odometer)
      [ofRadices radices] [0] := .cons .start .nil
  rcases (Counter.agrees_position radices).run begun steps with ⟨same, standing⟩
  refine ⟨same, standing.flip.imp ?_⟩
  intro position odometer shown
  exact standsAt_of_hasShown shown

/-- A copy taken after the second of six vectors goes on with the third, and the odometer itself
with the fifth after it. -/
example : Counter.ofOdometer.answers [ofRadices [3, 2]]
      [.nth 0 1, .copy 0, .next 1, .nth 0 4, .nth 0 0] =
    [some (some [1, 0]), none, some (some [2, 0]), some none, some none] := by
  decide

end Odometer
end ProgramSearch
