import IndentedText.Text.LineBreak

/-!
Texts in their plain form: every line, the last one included, ends with a newline, and no other line
break occurs. Cutting a text into its lines loses nothing but which breaks stood between them.
-/

namespace IndentedText.Text

def unifyBreaks : List Char → List Char
  | [] => []
  | '\r' :: '\n' :: rest => '\n' :: unifyBreaks rest
  | c :: rest => (if isLineBreak c then '\n' else c) :: unifyBreaks rest

/-- Whether there is a last line that no break ends. -/
def isOpen (chars : List Char) : Bool :=
  chars.getLast?.any fun last => !isLineBreak last

def normalize (text : String) : String :=
  String.ofList (unifyBreaks text.toList ++ if isOpen text.toList then ['\n'] else [])

example : normalize "a\r\n\r\u2028b" = "a\n\n\nb\n" := rfl

def unlines (lines : List String) : String :=
  String.join (lines.map (· ++ "\n"))

def Unbroken (text : String) : Prop :=
  ∀ c ∈ text.toList, isLineBreak c = false

instance (text : String) : Decidable (Unbroken text) :=
  decidable_of_iff (text.toList.all (fun c => !isLineBreak c) = true) (by simp [Unbroken])

theorem Unbroken.append {text other : String} (h : Unbroken text) (k : Unbroken other) :
    Unbroken (text ++ other) := by
  intro c inside
  rw [String.toList_append, List.mem_append] at inside
  exact inside.elim (h c) (k c)

@[simp] theorem isLineBreak_newline : isLineBreak '\n' = true := rfl

section Cut

variable {c : Char} {rest : List Char}

theorem cutLines_of_not_isLineBreak (h : isLineBreak c = false) :
    cutLines (c :: rest) = extendFirst c (cutLines rest) := by
  have other : c ≠ '\r' := by
    rintro rfl
    cases h
  rw [cutLines]
  · simp [h]
  · intro rest same
    exact absurd same other

@[simp] theorem cutLines_newline : cutLines ('\n' :: rest) = [] :: cutLines rest := by
  simp [cutLines]

end Cut

theorem cutLines_eq_nil {chars : List Char} : cutLines chars = [] ↔ chars = [] := by
  fun_cases cutLines chars with
  | case1 => simp
  | case2 rest => simp
  | case3 c rest => simp
  | case4 c rest => cases cutLines rest <;> simp

theorem isLineBreak_of_mem_cutLines (chars : List Char) :
    ∀ line ∈ cutLines chars, ∀ c ∈ line, isLineBreak c = false := by
  fun_induction cutLines chars with
  | case1 => simp
  | case2 rest ih => simpa using ih
  | case3 c rest _ _ ih => simpa using ih
  | case4 c rest _ other ih =>
    have unbroken : isLineBreak c = false := by simpa using other
    cases h : cutLines rest with
    | nil => simpa using unbroken
    | cons line lines =>
      rw [h] at ih
      simp only [extendFirst_cons, List.mem_cons, forall_eq_or_imp] at ih ⊢
      exact ⟨⟨unbroken, ih.1⟩, ih.2⟩

theorem cutLines_append_newline {line : List Char} (unbroken : ∀ c ∈ line, isLineBreak c = false)
    (rest : List Char) : cutLines (line ++ '\n' :: rest) = line :: cutLines rest := by
  induction line with
  | nil => exact cutLines_newline
  | cons c line ih =>
    rw [List.cons_append, cutLines_of_not_isLineBreak (unbroken c (by simp)),
      ih fun other member => unbroken other (by simp [member]), extendFirst_cons]

theorem cutLines_flatMap_newline {lines : List (List Char)}
    (unbroken : ∀ line ∈ lines, ∀ c ∈ line, isLineBreak c = false) :
    cutLines (lines.flatMap (· ++ ['\n'])) = lines := by
  induction lines with
  | nil => rfl
  | cons line lines ih =>
    rw [List.flatMap_cons, List.append_assoc, List.singleton_append,
      cutLines_append_newline (unbroken line (by simp)),
      ih fun other member => unbroken other (by simp [member])]

theorem isOpen_cons_of_ne_nil {rest : List Char} (h : rest ≠ []) (c : Char) :
    isOpen (c :: rest) = isOpen rest := by
  obtain ⟨d, others, rfl⟩ := List.exists_cons_of_ne_nil h
  simp [isOpen, List.getLast?_cons_cons]

theorem isOpen_cons_of_isLineBreak {c : Char} (h : isLineBreak c = true) (rest : List Char) :
    isOpen (c :: rest) = isOpen rest := by
  cases rest with
  | nil => simp [isOpen, h]
  | cons d others => exact isOpen_cons_of_ne_nil (List.cons_ne_nil d others) c

theorem flatMap_cutLines (chars : List Char) :
    (cutLines chars).flatMap (· ++ ['\n']) =
      unifyBreaks chars ++ if isOpen chars then ['\n'] else [] := by
  fun_induction cutLines chars with
  | case1 => rfl
  | case2 rest ih =>
    have opened : isOpen ('\r' :: '\n' :: rest) = isOpen rest := by
      rw [isOpen_cons_of_isLineBreak rfl, isOpen_cons_of_isLineBreak rfl]
    rw [List.flatMap_cons, ih, unifyBreaks, opened]
    rfl
  | case3 c rest other h ih =>
    rw [List.flatMap_cons, ih, unifyBreaks, if_pos h, isOpen_cons_of_isLineBreak h]
    · rfl
    · exact other
  | case4 c rest other h ih =>
    rw [unifyBreaks, if_neg h]
    · cases lines : cutLines rest with
      | nil =>
        have last : isOpen [c] = true := by simpa [isOpen] using h
        obtain rfl := cutLines_eq_nil.1 lines
        simp [unifyBreaks, last]
      | cons line lines =>
        have more : rest ≠ [] := by
          rintro rfl
          cases lines
        rw [lines] at ih
        rw [isOpen_cons_of_ne_nil more, List.cons_append, ← ih]
        rfl
    · exact other

theorem toList_unlines (lines : List String) :
    (unlines lines).toList = (lines.map String.toList).flatMap (· ++ ['\n']) := by
  simp [unlines, String.toList_join, List.flatMap_map]

theorem unbroken_of_mem_lines {text line : String} (member : line ∈ lines text) : Unbroken line := by
  obtain ⟨chars, inside, rfl⟩ := List.mem_map.1 member
  intro c here
  rw [String.toList_ofList] at here
  exact isLineBreak_of_mem_cutLines text.toList chars inside c here

theorem unlines_lines (text : String) : unlines (lines text) = normalize text := by
  rw [← String.toList_inj, toList_unlines, lines, List.map_map, normalize, String.toList_ofList,
    ← flatMap_cutLines]
  simp [Function.comp_def]

theorem lines_unlines {texts : List String} (unbroken : ∀ text ∈ texts, Unbroken text) :
    lines (unlines texts) = texts := by
  have cut : cutLines (unlines texts).toList = texts.map String.toList := by
    rw [toList_unlines]
    refine cutLines_flatMap_newline fun line member => ?_
    obtain ⟨text, inside, rfl⟩ := List.mem_map.1 member
    exact unbroken text inside
  rw [lines, cut, List.map_map]
  simp [Function.comp_def]

theorem normalize_unlines {texts : List String} (unbroken : ∀ text ∈ texts, Unbroken text) :
    normalize (unlines texts) = unlines texts := by
  rw [← unlines_lines, lines_unlines unbroken]

@[simp] theorem normalize_normalize (text : String) : normalize (normalize text) = normalize text := by
  rw [← unlines_lines text]
  exact normalize_unlines fun line member => unbroken_of_mem_lines member

theorem lines_eq_nil {text : String} : lines text = [] ↔ text = "" := by
  rw [lines, List.map_eq_nil_iff, cutLines_eq_nil, String.toList_eq_nil_iff]

end IndentedText.Text
