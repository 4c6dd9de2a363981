import Mathlib.Data.List.DropRight
import IndentedText.Text.Blank
import IndentedText.Text.Newline

/-!
Trimmed texts. What is trimmed off is blank, and what is left neither begins nor ends with a blank. Every
line break is blank, so the same is true of the lines that are left: the first does not begin with a blank,
and the last does not end with one.
-/

namespace IndentedText.Text

def BeginsFilled (text : String) : Prop :=
  ∃ c, text.toList.head? = some c ∧ isBlank c = false

def EndsFilled (text : String) : Prop :=
  ∃ c, text.toList.getLast? = some c ∧ isBlank c = false

theorem isLineBreak_of_not_isBlank {c : Char} (filled : isBlank c = false) : isLineBreak c = false := by
  cases breaks : isLineBreak c with
  | false => rfl
  | true => exact absurd (isBlank_of_isLineBreak breaks) (by simp [filled])

section Chars

variable {chars : List Char} {c : Char}

theorem trimChars_eq_rdropWhile (chars : List Char) :
    trimChars chars = (chars.dropWhile isBlank).rdropWhile isBlank := rfl

theorem exists_eq_append_trimChars (chars : List Char) : ∃ before after,
    chars = before ++ trimChars chars ++ after ∧ ∀ c ∈ before ++ after, isBlank c = true := by
  refine ⟨chars.takeWhile isBlank, (chars.dropWhile isBlank).rtakeWhile isBlank, ?_, fun c outside => ?_⟩
  · rw [trimChars_eq_rdropWhile, List.append_assoc, List.rdropWhile_append_rtakeWhile,
      List.takeWhile_append_dropWhile]
  · exact (List.mem_append.1 outside).elim List.mem_takeWhile_imp List.mem_rtakeWhile_imp

theorem isBlank_of_head?_trimChars (first : (trimChars chars).head? = some c) : isBlank c = false := by
  obtain ⟨after, kept⟩ := List.rdropWhile_prefix isBlank (chars.dropWhile isBlank)
  have begins : (chars.dropWhile isBlank).head? = some c := by
    rw [← kept, ← trimChars_eq_rdropWhile, List.head?_append, first, Option.some_or]
  have stops := List.head?_dropWhile_not isBlank chars
  rwa [begins] at stops

theorem isBlank_of_getLast?_trimChars (last : (trimChars chars).getLast? = some c) :
    isBlank c = false := by
  rw [trimChars, List.getLast?_reverse] at last
  have stops := List.head?_dropWhile_not isBlank (chars.dropWhile isBlank).reverse
  rwa [last] at stops

theorem trimChars_eq_nil : trimChars chars = [] ↔ ∀ c ∈ chars, isBlank c = true := by
  constructor
  · intro nothing
    obtain ⟨before, after, parts, blank⟩ := exists_eq_append_trimChars chars
    rw [nothing, List.append_nil] at parts
    exact parts ▸ blank
  · intro blank
    rw [trimChars_eq_rdropWhile, List.dropWhile_eq_nil_iff.2 blank, List.rdropWhile_nil]

theorem head?_cutLines (first : chars.head? = some c) (unbroken : isLineBreak c = false) :
    ∃ line, (cutLines chars).head? = some line ∧ line.head? = some c := by
  obtain ⟨rest, rfl⟩ := List.head?_eq_some_iff.1 first
  rw [cutLines_of_not_isLineBreak unbroken]
  cases cutLines rest with
  | nil => exact ⟨[c], rfl, rfl⟩
  | cons line lines => exact ⟨c :: line, rfl, rfl⟩

theorem getLast?_of_isLineBreak {d : Char} (breaks : isLineBreak d = true)
    (last : (d :: chars).getLast? = some c) (unbroken : isLineBreak c = false) :
    chars.getLast? = some c := by
  rw [List.getLast?_cons] at last
  cases rest : chars.getLast? with
  | none =>
    rw [rest] at last
    obtain rfl : d = c := Option.some.inj last
    rw [breaks] at unbroken
    cases unbroken
  | some e =>
    rw [rest] at last
    exact last

theorem getLast?_cutLines (last : chars.getLast? = some c) (unbroken : isLineBreak c = false) :
    ∃ line, (cutLines chars).getLast? = some line ∧ line.getLast? = some c := by
  fun_induction cutLines chars with
  | case1 => cases last
  | case2 rest ih =>
    have later := getLast?_of_isLineBreak rfl (getLast?_of_isLineBreak rfl last unbroken) unbroken
    obtain ⟨line, here, ends⟩ := ih later
    exact ⟨line, by rw [List.getLast?_cons, here]; rfl, ends⟩
  | case3 d rest _ breaks ih =>
    obtain ⟨line, here, ends⟩ := ih (getLast?_of_isLineBreak breaks last unbroken)
    exact ⟨line, by rw [List.getLast?_cons, here]; rfl, ends⟩
  | case4 d rest _ _ ih =>
    -- The character goes to the line that comes next, which may be the last one.
    cases rest with
    | nil => exact ⟨[d], rfl, last⟩
    | cons e others =>
      rw [List.getLast?_cons_cons] at last
      obtain ⟨line, here, ends⟩ := ih last
      cases cut : cutLines (e :: others) with
      | nil => simp [cut] at here
      | cons first lines =>
        cases lines with
        | nil =>
          obtain rfl : first = line := by simpa [cut] using here
          exact ⟨d :: first, rfl, by rw [List.getLast?_cons, ends]; rfl⟩
        | cons second lines => exact ⟨line, by simpa [cut] using here, ends⟩

end Chars

theorem exists_eq_append_trim (text : String) : ∃ before after,
    text = before ++ trim text ++ after ∧ ∀ c ∈ (before ++ after).toList, isBlank c = true := by
  obtain ⟨before, after, parts, blank⟩ := exists_eq_append_trimChars text.toList
  refine ⟨String.ofList before, String.ofList after, ?_, by simpa using blank⟩
  rw [← String.toList_inj, trim]
  simpa using parts

theorem trim_eq_empty {text : String} : trim text = "" ↔ ∀ c ∈ text.toList, isBlank c = true := by
  rw [← trimChars_eq_nil, trim, ← String.toList_eq_nil_iff, String.toList_ofList]

theorem lines_trim_eq_nil {text : String} :
    lines (trim text) = [] ↔ ∀ c ∈ text.toList, isBlank c = true :=
  lines_eq_nil.trans trim_eq_empty

section Ends

variable {text : String} (filled : lines (trim text) ≠ [])
include filled

theorem trimChars_ne_nil : trimChars text.toList ≠ [] :=
  fun nothing => filled (lines_trim_eq_nil.2 (trimChars_eq_nil.1 nothing))

theorem first_line_trim : ∃ line, (lines (trim text)).head? = some line ∧ BeginsFilled line := by
  have first := List.head?_eq_some_head (trimChars_ne_nil filled)
  have solid := isBlank_of_head?_trimChars first
  obtain ⟨line, here, begins⟩ := head?_cutLines first (isLineBreak_of_not_isBlank solid)
  refine ⟨String.ofList line, ?_, _, by rwa [String.toList_ofList], solid⟩
  rw [lines, trim, String.toList_ofList, List.head?_map, here, Option.map_some]

theorem last_line_trim : ∃ line, (lines (trim text)).getLast? = some line ∧ EndsFilled line := by
  have last := List.getLast?_eq_some_getLast (trimChars_ne_nil filled)
  have solid := isBlank_of_getLast?_trimChars last
  obtain ⟨line, here, ends⟩ := getLast?_cutLines last (isLineBreak_of_not_isBlank solid)
  refine ⟨String.ofList line, ?_, _, by rwa [String.toList_ofList], solid⟩
  rw [lines, trim, String.toList_ofList, List.getLast?_map, here, Option.map_some]

end Ends

end IndentedText.Text
