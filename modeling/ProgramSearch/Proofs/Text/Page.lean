import Mathlib.Data.List.Basic

namespace ProgramSearch

/-!
# Pages of words

A page has lines and a line has words.  Written out, line breaks stand between the lines and
blanks between the words of a line.  No word holds either of them, so splitting the text first
into lines and then into words gives back the page.  The words of a line may fall into groups
with one and the same word between them, and no group holds that word.
-/

universe u v

section Rows

variable {X : Type u}

theorem intercalate_ne_nil (divider : List X) {row : List X} (filled : row ≠ [])
    (rows : List (List X)) : divider.intercalate (row :: rows) ≠ [] := by
  cases rows <;> simp [filled]

theorem mem_intercalate {divider : List X} {rows : List (List X)} {x : X}
    (member : x ∈ divider.intercalate rows) : x ∈ divider ∨ ∃ row ∈ rows, x ∈ row := by
  induction rows with
  | nil =>
      rw [List.intercalate_nil] at member
      cases member
  | cons row rows ih =>
      cases rows with
      | nil =>
          rw [List.intercalate_singleton] at member
          exact .inr ⟨row, List.mem_cons_self, member⟩
      | cons next rows =>
          rw [List.intercalate_cons_cons, List.append_assoc, List.mem_append,
            List.mem_append] at member
          rcases member with here | between | later
          · exact .inr ⟨row, List.mem_cons_self, here⟩
          · exact .inl between
          · rcases ih later with between | ⟨other, among, inside⟩
            · exact .inl between
            · exact .inr ⟨other, List.mem_cons_of_mem _ among, inside⟩

/-- What stands between rows tells them apart if it stands in none of them. -/
theorem eq_of_intercalate_eq [BEq X] [LawfulBEq X] {divider : X} {rows rows' : List (List X)}
    (filled : rows ≠ []) (filled' : rows' ≠ []) (free : ∀ row ∈ rows, divider ∉ row)
    (free' : ∀ row ∈ rows', divider ∉ row)
    (same : [divider].intercalate rows = [divider].intercalate rows') : rows = rows' := by
  rw [← List.splitOn_intercalate divider free filled, same,
    List.splitOn_intercalate divider free' filled']

/-- Rows whose members are written in two ways are equal when the two ways never write different
members alike. -/
theorem eq_of_map_eq_map {Y : Type v} {write write' : X → Y} {row row' : List X}
    (alike : ∀ x ∈ row, ∀ y ∈ row', write x = write' y → x = y)
    (same : row.map write = row'.map write') : row = row' := by
  induction row generalizing row' with
  | nil => exact (List.map_eq_nil_iff.mp same.symm).symm
  | cons x row ih =>
      cases row' with
      | nil => cases same
      | cons y row' =>
          rcases List.cons.inj same with ⟨first, others⟩
          rw [alike x List.mem_cons_self y List.mem_cons_self first,
            ih (fun x member y member' => alike x (List.mem_cons_of_mem _ member) y
              (List.mem_cons_of_mem _ member')) others]

end Rows

/-- The same for texts with one character between them. -/
theorem eq_of_intercalate_text_eq {mark : String} {divider : Char}
    (single : mark.toList = [divider]) {texts texts' : List String} (filled : texts ≠ [])
    (filled' : texts' ≠ []) (free : ∀ text ∈ texts, divider ∉ text.toList)
    (free' : ∀ text ∈ texts', divider ∉ text.toList)
    (same : mark.intercalate texts = mark.intercalate texts') : texts = texts' := by
  have chars := congrArg String.toList same
  rw [String.toList_intercalate, String.toList_intercalate, single] at chars
  apply List.map_injective_iff.mpr fun _ _ => String.toList_inj.mp
  apply eq_of_intercalate_eq _ _ _ _ chars
  · simpa using filled
  · simpa using filled'
  · simpa using free
  · simpa using free'

namespace Page

/-- What can stand between blanks. -/
def IsWord (text : String) : Prop :=
  ' ' ∉ text.toList ∧ '\n' ∉ text.toList

instance (text : String) : Decidable (IsWord text) :=
  inferInstanceAs (Decidable (' ' ∉ text.toList ∧ '\n' ∉ text.toList))

/-- The words of one line. -/
def lineText (words : List String) : String :=
  " ".intercalate words

/-- All lines of a page. -/
def pageText (page : List (List String)) : String :=
  "\n".intercalate (page.map lineText)

/-- A line of one or more words. -/
structure IsLine (words : List String) : Prop where
  filled : words ≠ []
  each : ∀ word ∈ words, IsWord word

/-- Groups of words with a word between them make up one line. -/
theorem lineText_intercalate (divider : String) {groups : List (List String)}
    (filled : ∀ group ∈ groups, group ≠ []) :
    lineText ([divider].intercalate groups) =
      (" " ++ divider ++ " ").intercalate (groups.map lineText) := by
  induction groups with
  | nil => rfl
  | cons group groups ih =>
      rcases List.forall_mem_cons.mp filled with ⟨first, others⟩
      cases groups with
      | nil => simp [lineText]
      | cons next groups =>
          have later := intercalate_ne_nil [divider] (others next List.mem_cons_self) groups
          rw [List.intercalate_cons_cons, List.append_assoc, List.singleton_append, lineText,
            String.intercalate_append_of_ne_nil first (List.cons_ne_nil _ _),
            String.intercalate_cons_of_ne_nil later, List.map_cons,
            String.intercalate_cons_of_ne_nil (by simp), ← ih others]
          simp only [lineText, String.append_assoc]

theorem newline_notMem_lineText {words : List String} (line : IsLine words) :
    '\n' ∉ (lineText words).toList := by
  rw [lineText, String.toList_intercalate]
  intro member
  rcases mem_intercalate member with blank | ⟨chars, among, inside⟩
  · revert blank
    decide
  · rcases List.mem_map.mp among with ⟨word, here, rfl⟩
    exact (line.each word here).2 inside

theorem eq_of_lineText_eq {words words' : List String} (line : IsLine words)
    (line' : IsLine words') (same : lineText words = lineText words') : words = words' := by
  have blank : " ".toList = [' '] := rfl
  exact eq_of_intercalate_text_eq blank line.filled line'.filled
    (fun word member => (line.each word member).1) (fun word member => (line'.each word member).1)
    same

/-- The text of a page determines the page. -/
theorem eq_of_pageText_eq {page page' : List (List String)} (filled : page ≠ [])
    (filled' : page' ≠ []) (lines : ∀ line ∈ page, IsLine line)
    (lines' : ∀ line ∈ page', IsLine line)
    (same : pageText page = pageText page') : page = page' := by
  have lineBreak : "\n".toList = ['\n'] := rfl
  have texts : page.map lineText = page'.map lineText := by
    apply eq_of_intercalate_text_eq lineBreak _ _ _ _ same
    · simpa using filled
    · simpa using filled'
    · simpa using fun line member => newline_notMem_lineText (lines line member)
    · simpa using fun line member => newline_notMem_lineText (lines' line member)
  exact eq_of_map_eq_map (fun line member line' member' =>
    eq_of_lineText_eq (lines line member) (lines' line' member')) texts

end Page

end ProgramSearch
