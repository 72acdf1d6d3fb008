namespace ProgramSearch

/-!
# Integers that fit in 64 bits
-/

/-- The number as a 64-bit word, if it fits. -/
def word? (value : Int) : Option Int64 :=
  if fits : Int64.minValue.toInt ≤ value ∧ value ≤ Int64.maxValue.toInt then
    some (Int64.ofIntLE value fits.1 fits.2)
  else none

/-- A word stands for the number it was made from. -/
theorem word?_eq_some_iff (value : Int) (word : Int64) :
    word? value = some word ↔ word.toInt = value := by
  unfold word?
  split
  · rename_i fits
    constructor
    · intro made
      cases made
      exact Int64.toInt_ofIntLE
    · rintro rfl
      simp
  · rename_i outside
    constructor
    · intro made
      cases made
    · rintro rfl
      exact absurd ⟨Int64.minValue_le_toInt word, Int64.toInt_le word⟩ outside

end ProgramSearch
