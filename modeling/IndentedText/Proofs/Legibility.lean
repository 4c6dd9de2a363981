import IndentedText.Proofs.IndentUnit

/-!
A print can be read again. Cut at its newlines it is one piece for each line, and the units taken off a
piece leave the text of its line and count its level, as long as no text begins with a unit or has a
newline in it.
-/

namespace IndentedText

/-- How many units the characters begin with, and the characters behind them. -/
def stripUnits (unit chars : List Char) : Nat × List Char :=
  if unit ≠ [] ∧ unit <+: chars then
    let (n, rest) := stripUnits unit (chars.drop unit.length)
    (n + 1, rest)
  else (0, chars)
termination_by chars.length
decreasing_by
  rename_i begins
  have long := begins.2.length_le
  have some := List.length_pos_iff.2 begins.1
  rw [List.length_drop]
  omega

theorem stripUnits_append {unit : List Char} (nonempty : unit ≠ []) (chars : List Char) :
    stripUnits unit (unit ++ chars) =
      ((stripUnits unit chars).1 + 1, (stripUnits unit chars).2) := by
  rw [stripUnits, if_pos ⟨nonempty, List.prefix_append unit chars⟩, List.drop_left]

/-- Units are told from what is behind them even where a unit begins inside another. -/
theorem stripUnits_replicate {unit chars : List Char} (nonempty : unit ≠ [])
    (other : ¬ unit <+: chars) (n : Nat) :
    stripUnits unit ((List.replicate n unit).flatten ++ chars) = (n, chars) := by
  induction n with
  | zero =>
    rw [List.replicate_zero, List.flatten_nil, List.nil_append, stripUnits, if_neg]
    intro begins
    exact other begins.2
  | succ n ih =>
    rw [List.replicate_succ, List.flatten_cons, List.append_assoc, stripUnits_append nonempty, ih]

def itemChars (unit : String) (item : Nat × String) : List Char :=
  (List.replicate item.1 unit.toList).flatten ++ item.2.toList

theorem toList_printedIn (unit : String) (items : List (Nat × String)) :
    (printedIn unit items).toList = items.flatMap fun item => itemChars unit item ++ ['\n'] := by
  rw [printedIn, String.toList_join, List.flatMap_map]
  refine List.flatMap_congr fun item _ => ?_
  simp [itemChars, String.toList_join, List.flatMap_def]

/-- A text that can be told from the units before it and the newline behind it. -/
structure Legible (unit text : String) : Prop where
  oneLine : '\n' ∉ text.toList
  unindented : ¬ unit.toList <+: text.toList

section Print

variable {unit : String} (plain : '\n' ∉ unit.toList)
include plain

theorem newline_notMem_itemChars {item : Nat × String} (oneLine : '\n' ∉ item.2.toList) :
    '\n' ∉ itemChars unit item := by
  unfold itemChars
  intro inside
  obtain inside | inside := List.mem_append.1 inside
  · obtain ⟨chars, copy, inside⟩ := List.mem_flatten.1 inside
    rw [(List.mem_replicate.1 copy).2] at inside
    exact plain inside
  · exact oneLine inside

variable {items : List (Nat × String)} (oneLine : ∀ item ∈ items, '\n' ∉ item.2.toList)
include oneLine

theorem splitOn_printedIn :
    (printedIn unit items).toList.splitOn '\n' = items.map (itemChars unit) ++ [[]] := by
  rw [toList_printedIn]
  induction items with
  | nil => rfl
  | cons item rest ih =>
    have first := newline_notMem_itemChars plain (oneLine item (by simp))
    have later := ih fun other member => oneLine other (by simp [member])
    have others : ∀ c ∈ itemChars unit item, (c == '\n') = false := by
      intro c inside
      rw [beq_eq_false_iff_ne]
      rintro rfl
      exact first inside
    rw [List.flatMap_cons, List.append_assoc, List.singleton_append, List.map_cons, List.cons_append,
      ← later, List.splitOn_eq_splitOnP, List.splitOnP_append_cons_of_forall_mem others '\n' (by simp)]
    rfl

theorem count_newline_printedIn : (printedIn unit items).toList.count '\n' = items.length := by
  rw [toList_printedIn]
  induction items with
  | nil => rfl
  | cons item rest ih =>
    have first := newline_notMem_itemChars plain (oneLine item (by simp))
    have later := ih fun other member => oneLine other (by simp [member])
    rw [List.flatMap_cons, List.count_append, List.count_append, List.count_eq_zero.2 first, later,
      List.length_cons, List.count_singleton_self]
    omega

end Print

def readPrinted (unit text : String) : List (Nat × String) :=
  (text.toList.splitOn '\n').dropLast.map fun piece =>
    let (n, rest) := stripUnits unit.toList piece
    (n, String.ofList rest)

theorem readPrinted_printedIn {unit : String} (nonempty : unit ≠ "") (plain : '\n' ∉ unit.toList)
    {items : List (Nat × String)} (legible : ∀ item ∈ items, Legible unit item.2) :
    readPrinted unit (printedIn unit items) = items := by
  have units : unit.toList ≠ [] := by simpa using nonempty
  rw [readPrinted, splitOn_printedIn plain fun item member => (legible item member).oneLine,
    List.dropLast_concat, List.map_map]
  conv_rhs => rw [← List.map_id items]
  refine List.map_congr_left fun item member => ?_
  simp only [Function.comp_apply, itemChars, stripUnits_replicate units (legible item member).unindented,
    String.ofList_toList, id]

theorem Line.item_eq {ambient : Int} (level : 0 ≤ ambient) (line : Line) :
    line.item ambient = (ambient.toNat + line.depth, line.text) := by
  unfold Line.item
  congr 1
  omega

theorem Line.map_item_inj {ambient : Int} (level : 0 ≤ ambient) {lines others : List Line} :
    lines.map (Line.item ambient) = others.map (Line.item ambient) ↔ lines = others := by
  refine List.map_inj_right fun line other same => ?_
  rw [line.item_eq level, other.item_eq level, Prod.mk.injEq] at same
  obtain ⟨levels, texts⟩ := same
  have depths : line.depth = other.depth := by omega
  cases line
  cases other
  congr

namespace Document

/-- Sections of documents with the same unit are printed the same just if they have the same lines. Each
line is printed with one newline, and its level and its text can be read off what is printed. -/
theorem print_determines_lines {d e : Document} (reached : d.Reachable) (alsoReached : e.Reachable)
    (sameUnit : e.unit = d.unit) (nonempty : d.unit ≠ "") (plain : '\n' ∉ d.unit.toList) {b c : Nat}
    (legible : ∀ line ∈ d.lines b, Legible d.unit line.text)
    (also : ∀ line ∈ e.lines c, Legible d.unit line.text) {ambient : Int} (level : 0 ≤ ambient) :
    ∃ text other, d.Prints b ambient text ∧ e.Prints c ambient other ∧
      (text = other ↔ d.lines b = e.lines c) ∧
      text.toList.count '\n' = (d.lines b).length ∧
      readPrinted d.unit text =
        (d.lines b).map fun line => (ambient.toNat + line.depth, line.text) := by
  have items {lines : List Line} (legible : ∀ line ∈ lines, Legible d.unit line.text) :
      ∀ item ∈ lines.map (Line.item ambient), Legible d.unit item.2 := by
    intro item member
    obtain ⟨line, inside, rfl⟩ := List.mem_map.1 member
    exact legible line inside
  have first := readPrinted_printedIn nonempty plain (items legible)
  have second := readPrinted_printedIn nonempty plain (items also)
  have newlines := count_newline_printedIn plain fun item member => (items legible item member).oneLine
  rw [List.length_map] at newlines
  rw [← Line.renderAll_eq_printedIn] at first second newlines
  refine ⟨_, _, reached.orderly.prints_lines rfl rfl ambient,
    alsoReached.orderly.prints_lines sameUnit rfl ambient, ?_, newlines, ?_⟩
  · constructor
    · intro same
      rw [← Line.map_item_inj level, ← first, same, second]
    · intro same
      rw [same]
  · rw [first]
    exact List.map_congr_left fun line _ => line.item_eq level

/-- A unit that begins inside itself, before texts that begin with a part of it. One section prints what
waits in it and in another, the other what it was given line by line. -/
theorem print_determines_lines_overlap :
    let d := (Step.runAll [.act 0 (.command .indent), .act 0 (.command (.write "ab")), .act 0 .nest,
      .act 1 (.command (.write "b")), .act 0 .nest, .act 2 (.command (.writeLine "c")),
      .act 2 (.command (.setVisible false))] (.new (some "aa"))).2
    let e := (Step.runAll [.indented 0 [.act 0 (.command (.writeLines "ab\nb"))]]
      (.new (some "aa"))).2
    (d.Reachable ∧ e.Reachable) ∧ (e.unit = d.unit ∧ d.unit ≠ "" ∧ '\n' ∉ d.unit.toList ∧ (0 : Int) ≤ 1) ∧
      (∀ line ∈ d.lines 0, Legible d.unit line.text) ∧ (∀ line ∈ e.lines 0, Legible d.unit line.text) ∧
      ∃ text, d.Prints 0 1 text ∧ e.Prints 0 1 text ∧ readPrinted "aa" text = [(2, "ab"), (2, "b")] := by
  intro d e
  have lines : d.lines 0 = [⟨1, "ab"⟩, ⟨1, "b"⟩] := by decide +kernel
  have same : e.lines 0 = d.lines 0 := by decide +kernel
  have legible : ∀ line ∈ d.lines 0, Legible d.unit line.text := by
    rw [lines]
    simp only [List.mem_cons, List.not_mem_nil, or_false, forall_eq_or_imp, forall_eq]
    exact ⟨⟨by decide, by decide⟩, ⟨by decide, by decide⟩⟩
  have also : ∀ line ∈ e.lines 0, Legible d.unit line.text := by
    rw [same]
    exact legible
  have reached : d.Reachable := ⟨some "aa", _, rfl⟩
  have alsoReached : e.Reachable := ⟨some "aa", _, rfl⟩
  obtain ⟨text, other, prints, also_prints, texts, -, read⟩ :=
    print_determines_lines reached alsoReached rfl (by decide) (by decide) legible also
      (by decide : (0 : Int) ≤ 1)
  rw [← texts.2 same.symm] at also_prints
  rw [lines] at read
  exact ⟨⟨reached, alsoReached⟩, ⟨rfl, by decide, by decide, by decide⟩, legible, also, text, prints, also_prints, read⟩

end Document

end IndentedText
