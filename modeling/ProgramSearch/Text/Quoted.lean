namespace ProgramSearch
namespace Quoted

/-!
# Quoted text

A quoted text stands in double quotes.  A double quote or backslash inside it
follows a backslash, the common control characters have letters of their own,
and every other control character and the no-break space is written by its code
in hexadecimal.  All other characters stand for themselves.

Which characters are written by their code is a choice of this printer and not of
the notation: a text in quotes ends at the same quote whatever the choice.
-/

/-- The no-break space shows as a blank and is escaped to be told from one. -/
def noBreakSpace : Char :=
  '\u00a0'

/-- A control character lies below the blank or between delete and the end of
the second control block. -/
def isControl (char : Char) : Bool :=
  char.toNat < 0x20 || (0x7f ≤ char.toNat && char.toNat < 0xa0)

/-- The characters that do not stand for themselves. -/
def isCoded (char : Char) : Bool :=
  isControl char || char = noBreakSpace

/-- The letter that stands for a character behind a backslash. -/
def letter? (char : Char) : Option Char :=
  if char = '"' then some '"'
  else if char = '\\' then some '\\'
  else if char = '\n' then some 'n'
  else if char = '\t' then some 't'
  else if char = '\r' then some 'r'
  else if char = '\x00' then some '0'
  else none

/-- A character given by its code, in lower-case hexadecimal without leading zeros. -/
def codeEscape (char : Char) : List Char :=
  "\\u\x7b".toList ++ Nat.toDigits 16 char.toNat ++ "\x7d".toList

/-- How one character is written between the quotes, given which characters without a
letter are written by their code. -/
def escapeWith (coded : Char → Bool) (char : Char) : List Char :=
  match letter? char with
  | some letter => ['\\', letter]
  | none => if coded char then codeEscape char else [char]

/-- The text between double quotes, given which characters are written by their code. -/
def quoteWith (coded : Char → Bool) (text : String) : String :=
  String.ofList ('"' :: text.toList.flatMap (escapeWith coded) ++ ['"'])

end Quoted
end ProgramSearch
