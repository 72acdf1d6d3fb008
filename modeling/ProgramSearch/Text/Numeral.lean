import ProgramSearch.Word

namespace ProgramSearch
namespace Numeral

/-!
# Numbers written in decimal

A numeral is one or more decimal digits, after a sign if one is allowed.  A plus
sign always is, and a minus sign only where negative numbers are.  Leading zeros
are harmless; a number outside the range asked for is refused.
-/

/-- The value of a decimal digit. -/
def digit? (char : Char) : Option Nat :=
  if '0' ≤ char ∧ char ≤ '9' then some (char.toNat - '0'.toNat) else none

/-- The number read so far, continued by further digits. -/
def continue? : Nat → List Char → Option Nat
  | value, [] => some value
  | value, char :: chars =>
      match digit? char with
      | none => none
      | some digit => continue? (10 * value + digit) chars

/-- The number written by one or more digits. -/
def digits? (chars : List Char) : Option Nat :=
  if chars.isEmpty then none else continue? 0 chars

/-- A natural number below the bound, with or without a plus sign. -/
def natural? (bound : Nat) (text : String) : Option Nat :=
  let read :=
    match text.toList with
    | '+' :: chars => digits? chars
    | chars => digits? chars
  read.filter (· < bound)

/-- A number that fits in 64 bits, with or without a sign. -/
def integer? (text : String) : Option Int64 :=
  let read :=
    match text.toList with
    | '+' :: chars => (digits? chars).map Int.ofNat
    | '-' :: chars => (digits? chars).map fun value => -Int.ofNat value
    | chars => (digits? chars).map Int.ofNat
  read.bind word?

/-- One more than the largest count a 64-bit machine can hold. -/
def countBound : Nat :=
  UInt64.size

end Numeral
end ProgramSearch
