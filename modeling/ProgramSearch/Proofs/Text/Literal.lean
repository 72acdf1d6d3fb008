import Mathlib
import ProgramSearch.Proofs.Text.Separation
import ProgramSearch.Tree.Text

namespace ProgramSearch

/-!
# Literals can be read back

A number in decimal ends where something else than a digit follows.  A quoted text ends at the
first quote that no backslash hides, and every character between the quotes can be read back,
whichever characters are written by their code.  Neither kind of literal breaks a line.
-/

universe u

namespace Quoted

/-! ## Codes in hexadecimal -/

/-- The value of a hexadecimal digit. -/
def hexDigit (char : Char) : Nat :=
  if char.isDigit then char.toNat - '0'.toNat else char.toNat - 'a'.toNat + 10

/-- The number written by hexadecimal digits. -/
def hexValue (chars : List Char) : Nat :=
  chars.foldl (fun value char => 16 * value + hexDigit char) 0

theorem hexDigit_digitChar {digit : Nat} (small : digit < 16) :
    hexDigit digit.digitChar = digit := by
  have each : ∀ digit < 16, hexDigit (Nat.digitChar digit) = digit := by decide
  exact each digit small

theorem hexValue_toDigits (number : Nat) : hexValue (Nat.toDigits 16 number) = number := by
  induction number using Nat.strongRecOn with
  | ind number ih =>
      rw [Nat.toDigits_eq_if (by decide)]
      split
      · rename_i small
        simp [hexValue, hexDigit_digitChar small]
      · rename_i large
        have before := ih (number / 16) (by omega)
        have last : number % 16 < 16 := Nat.mod_lt _ (by decide)
        rw [hexValue] at before
        rw [hexValue, List.foldl_append, before, List.foldl_cons, List.foldl_nil,
          hexDigit_digitChar last, Nat.div_add_mod]

theorem exists_digitChar_of_mem_toDigits {number : Nat} {char : Char}
    (member : char ∈ Nat.toDigits 16 number) : ∃ digit, char = Nat.digitChar digit := by
  induction number using Nat.strongRecOn with
  | ind number ih =>
      rw [Nat.toDigits_eq_if (by decide)] at member
      split at member
      · exact ⟨number, List.mem_singleton.mp member⟩
      · rcases List.mem_append.mp member with earlier | last
        · exact ih (number / 16) (by omega) earlier
        · exact ⟨_, List.mem_singleton.mp last⟩

/-! ## One character -/

/-- The character for which a letter stands behind a backslash. -/
def ofLetter (letter : Char) : Char :=
  if letter = 'n' then '\n'
  else if letter = 't' then '\t'
  else if letter = 'r' then '\r'
  else if letter = '0' then '\x00'
  else letter

/-- Read one character of a quoted text, with what is left. -/
def readChar? : List Char → Option (Char × List Char)
  | [] => none
  | '\\' :: 'u' :: '\x7b' :: rest =>
      some (Char.ofNat (hexValue (rest.takeWhile (· ≠ '\x7d'))),
        (rest.dropWhile (· ≠ '\x7d')).tail)
  | '\\' :: letter :: rest => some (ofLetter letter, rest)
  | char :: rest => some (char, rest)

theorem of_letter?_eq_some {char letter : Char} (named : letter? char = some letter) :
    ofLetter letter = char ∧ letter ≠ 'u' ∧ letter ≠ '\n' := by
  have each : ∀ pair ∈ [('"', '"'), ('\\', '\\'), ('\n', 'n'), ('\t', 't'), ('\r', 'r'),
      ('\x00', '0')], ofLetter pair.2 = pair.1 ∧ pair.2 ≠ 'u' ∧ pair.2 ≠ '\n' := by decide
  apply each (char, letter)
  unfold letter? at named
  split_ifs at named <;> cases named <;> simp_all

theorem ne_of_letter?_eq_none {char : Char} (unnamed : letter? char = none) :
    char ≠ '"' ∧ char ≠ '\\' ∧ char ≠ '\n' := by
  refine ⟨?_, ?_, ?_⟩ <;> rintro rfl <;> cases unnamed

theorem mem_toDigits_ne {number : Nat} {char : Char} (member : char ∈ Nat.toDigits 16 number) :
    char ≠ '\x7d' ∧ char ≠ '\n' := by
  rcases exists_digitChar_of_mem_toDigits member with ⟨digit, rfl⟩
  exact ⟨Nat.digitChar_ne _ (by decide), Nat.digitChar_ne _ (by decide)⟩

/-- A character is read back from its written form, whatever follows. -/
theorem readChar?_escapeWith (coded : Char → Bool) (char : Char) (rest : List Char) :
    readChar? (escapeWith coded char ++ rest) = some (char, rest) := by
  rw [escapeWith]
  cases named : letter? char with
  | some letter =>
      rcases of_letter?_eq_some named with ⟨meant, other, _⟩
      simp [readChar?, meant, other]
  | none =>
      rcases ne_of_letter?_eq_none named with ⟨_, other, _⟩
      cases coded char with
      | false => simp [readChar?, other]
      | true =>
          have digits : ∀ digit ∈ Nat.toDigits 16 char.toNat, (decide (digit ≠ '\x7d')) = true :=
            fun digit member => decide_eq_true (mem_toDigits_ne member).1
          have written : codeEscape char ++ rest =
              '\\' :: 'u' :: '\x7b' :: (Nat.toDigits 16 char.toNat ++ '\x7d' :: rest) := by
            simp [codeEscape]
          rw [if_pos rfl, written, readChar?, List.takeWhile_append_of_pos digits,
            List.dropWhile_append_of_pos digits]
          simp [hexValue_toDigits]

/-- Written characters can be told apart, and from what follows them. -/
theorem standsOut_escapeWith (coded : Char → Bool) (char : Char) :
    StandsOut (fun _ => True) (fun _ => True) (escapeWith coded) char := by
  intro other rest rest' _ _ _ same
  have read := readChar?_escapeWith coded char rest
  rw [same, readChar?_escapeWith] at read
  cases read
  exact ⟨rfl, rfl⟩

theorem head?_escapeWith (coded : Char → Bool) (char : Char) (rest : List Char) :
    (escapeWith coded char ++ rest).head? ≠ some '"' := by
  rw [escapeWith]
  cases named : letter? char with
  | some letter => simp
  | none =>
      rcases ne_of_letter?_eq_none named with ⟨other, _, _⟩
      cases coded char with
      | false => simp [other]
      | true => simp [codeEscape]

theorem newline_notMem_escapeWith (coded : Char → Bool) (char : Char) :
    '\n' ∉ escapeWith coded char := by
  rw [escapeWith]
  cases named : letter? char with
  | some letter =>
      rcases of_letter?_eq_some named with ⟨_, _, other⟩
      simp [Ne.symm other]
  | none =>
      rcases ne_of_letter?_eq_none named with ⟨_, _, other⟩
      cases coded char with
      | false => simp [Ne.symm other]
      | true =>
          have digits : '\n' ∉ Nat.toDigits 16 char.toNat :=
            fun member => (mem_toDigits_ne member).2 rfl
          simp [codeEscape, digits]

/-! ## The whole text -/

theorem toList_quoteWith (coded : Char → Bool) (text : String) :
    (quoteWith coded text).toList = '"' :: (text.toList.flatMap (escapeWith coded) ++ ['"']) := by
  rw [quoteWith, String.toList_ofList, List.cons_append]

/-- A quoted text shows where it ends, whatever follows. -/
theorem standsOut_quoteWith (coded : Char → Bool) (text : String) :
    StandsOut (fun _ => True) (fun _ => True) (fun text => (quoteWith coded text).toList) text := by
  intro other rest rest' _ _ _ same
  simp only [toList_quoteWith, List.cons_append, List.append_assoc, List.cons.injEq, true_and,
    List.nil_append] at same
  have row : StandsOut (fun other => ∀ char ∈ other, True) (fun rest => rest.head? = some '"')
      (List.flatMap (escapeWith coded)) text.toList :=
    standsOut_flatMap (fun _ _ => trivial) (fun _ _ _ => trivial)
      (fun char _ rest => head?_escapeWith coded char rest) (fun _ _ => trivial)
      (fun char _ => standsOut_escapeWith coded char)
  rcases row (fun _ _ => trivial) rfl rfl same with ⟨chars, behind⟩
  exact ⟨String.toList_inj.mp chars, (List.cons.inj behind).2⟩

theorem newline_notMem_quoteWith (coded : Char → Bool) (text : String) :
    '\n' ∉ (quoteWith coded text).toList := by
  rw [toList_quoteWith, List.mem_cons, List.mem_append, List.mem_flatMap, List.mem_singleton]
  rintro (quote | ⟨char, _, inside⟩ | quote)
  · cases quote
  · exact newline_notMem_escapeWith coded char inside
  · cases quote

end Quoted

/-! ## Literals of either type -/

/-- Literals in parentheses can be read back: each stands out in front of the closing
parenthesis, and none breaks the line. -/
structure LegibleLiterals (V : Type u) [LiteralText V] : Prop where
  standsOut : ∀ value : V, StandsOut (fun _ => True) (BeginsOutside (· ≠ ')'))
    (fun value : V => (literalText value).toList) value
  newline_notMem : ∀ value : V, '\n' ∉ (literalText value).toList

theorem legibleLiterals_quoted (coded : Char → Bool) :
    @LegibleLiterals String (quotedLiterals coded) := by
  refine @LegibleLiterals.mk String (quotedLiterals coded) ?_
    (Quoted.newline_notMem_quoteWith coded)
  intro text other rest rest' _ _ _ same
  exact Quoted.standsOut_quoteWith coded text trivial trivial trivial same

/-- A number in decimal consists of digits, behind a sign if it is negative. -/
theorem isDigit_or_sign_of_mem_repr {number : Int} {char : Char}
    (member : char ∈ number.repr.toList) : char.isDigit = true ∨ char = '-' := by
  have digits : ∀ {number : Nat}, char ∈ number.repr.toList → char.isDigit = true := by
    intro number member
    rw [Nat.repr_eq_ofList_toDigits, String.toList_ofList] at member
    exact Nat.isDigit_of_mem_toDigits (by decide) (by decide) member
  rw [Int.repr_eq_if] at member
  split at member
  · exact .inl (digits member)
  · rw [String.toList_append, List.mem_append] at member
    rcases member with sign | digit
    · exact .inr (List.mem_singleton.mp sign)
    · exact .inl (digits digit)

theorem legibleLiterals_int64 : LegibleLiterals Int64 where
  standsOut := by
    intro value other rest rest' _ outside outside' same
    have inside : ∀ {value : Int64}, ∀ char ∈ (literalText value).toList, char ≠ ')' := by
      rintro value char member rfl
      rcases isDigit_or_sign_of_mem_repr member with digit | sign
      · cases digit
      · cases sign
    rcases append_inj_of_beginsOutside inside inside outside outside' same with ⟨texts, rest_same⟩
    have numbers := Int.repr_injective (String.toList_inj.mp texts)
    exact ⟨Int64.toInt_inj.mp numbers, rest_same⟩
  newline_notMem := by
    intro value member
    rcases isDigit_or_sign_of_mem_repr member with digit | sign
    · cases digit
    · cases sign

end ProgramSearch
