import IndentedText.Proofs.Alignment
import IndentedText.Proofs.Layout

/-!
The fields of a class. They are one table, which nothing around the class has a part in: its rows stand
right below the documentation of the class, one level in, and names, annotations and initial values each
begin at one offset.
-/

namespace IndentedText

namespace Code

def blanks (n : Nat) : String :=
  String.ofList (List.replicate n ' ')

@[simp] theorem length_blanks (n : Nat) : (blanks n).length = n := by
  simp [blanks]

/-- The text of a field in a table whose annotations begin at `start` and whose initial values begin at
`middle`. Its annotation does not touch the initial value, with which the text goes on to `stop`. -/
inductive ClassField.Stands (start middle stop : Nat) : ClassField → String → Prop where
  | bare {name annotation : String} (gap space : Nat) (begins : name.length + 2 + gap = start)
      (ends : start + annotation.length + space = middle) :
      Stands start middle stop { name, annotation }
        (name ++ ": " ++ blanks gap ++ annotation ++ blanks space)
  | initialized {name annotation initial : String} (gap space rest : Nat)
      (begins : name.length + 2 + gap = start) (apart : 0 < space)
      (initialAt : start + annotation.length + space = middle)
      (ends : middle + 2 + initial.length + rest = stop) :
      Stands start middle stop { name, annotation, initial := some initial }
        (name ++ ": " ++ blanks gap ++ annotation ++ blanks space ++ "= " ++ initial ++ blanks rest)

theorem ClassField.Stands.length {start middle stop : Nat} {field : ClassField} {text : String}
    (stands : Stands start middle stop field text) :
    text.length = if field.initial.isSome then stop else middle := by
  cases stands with
  | bare gap space begins ends =>
    simp only [String.length_append, length_blanks, Option.isSome_none, Bool.false_eq_true, if_false]
    change _ + 2 + _ + _ + _ = _
    omega
  | initialized gap space rest begins apart initialAt ends =>
    simp only [String.length_append, length_blanks, Option.isSome_some, if_true]
    change _ + 2 + _ + _ + _ + 2 + _ + _ = _
    omega

theorem blank_append_blanks (n : Nat) : " " ++ blanks n = blanks (n + 1) := by
  rw [← String.toList_inj]
  simp [blanks, List.replicate_succ]

theorem pad_some (width : Nat) (text : String) :
    Table.pad width (some text) = text ++ blanks (width - text.length) := rfl

theorem ClassField.cellWidths (name hint initial : String) :
    cellWidth (some (name ++ ": ")) = name.length + 2 ∧
      cellWidth (some (hint ++ " ")) = hint.length + 1 ∧
      cellWidth (some ("= " ++ initial)) = 2 + initial.length :=
  ⟨String.length_append .., String.length_append .., String.length_append ..⟩

theorem ClassField.stands_alignRow {widths : List Nat} {field : ClassField}
    (fits : Table.Fits widths field.row) :
    field.Stands (widths.getD 0 0) (widths.getD 0 0 + widths.getD 1 0)
      (widths.getD 0 0 + widths.getD 1 0 + widths.getD 2 0) (Table.alignRow widths field.row) := by
  obtain ⟨name, hint, initial⟩ := field
  cases initial with
  | none =>
    obtain _ | ⟨first, _ | ⟨second, rest⟩⟩ := fits
    rename_i width next widths
    obtain ⟨named, -, -⟩ := cellWidths name hint ""
    have wide : hint.length ≤ next := second
    have text : Table.alignRow (width :: next :: widths) (row { name, annotation := hint }) =
        name ++ ": " ++ blanks (width - cellWidth (some (name ++ ": "))) ++ hint ++
          blanks (next - hint.length) := by
      simp [row, Table.alignRow, pad_some, cellWidth, cellText, String.append_assoc]
    rw [text, named]
    rw [named] at first
    exact .bare _ _ (Nat.add_sub_cancel' first) (by simp; omega)
  | some initial =>
    obtain _ | ⟨first, _ | ⟨second, _ | ⟨third, rest⟩⟩⟩ := fits
    rename_i width next last widths
    obtain ⟨named, spaced, equated⟩ := cellWidths name hint initial
    have text : Table.alignRow (width :: next :: last :: widths)
        (row { name, annotation := hint, initial := some initial }) =
        name ++ ": " ++ blanks (width - cellWidth (some (name ++ ": "))) ++ hint ++
          blanks (next - cellWidth (some (hint ++ " ")) + 1) ++ "= " ++ initial ++
          blanks (last - cellWidth (some ("= " ++ initial))) := by
      rw [← blank_append_blanks]
      simp [row, Table.alignRow, pad_some, cellWidth, cellText, String.append_assoc]
    rw [text, named, spaced, equated]
    rw [named] at first
    rw [spaced] at second
    rw [equated] at third
    exact .initialized _ _ _ (Nat.add_sub_cancel' first) (Nat.succ_pos _) (by simp; omega)
      (by simp; omega)

theorem ClassField.row_head (field : ClassField) : field.row[0]? = some (some (field.name ++ ": ")) := by
  obtain ⟨name, annotation, initial⟩ := field
  cases initial <;> rfl

theorem ClassField.fits_row {fields : List ClassField} {field : ClassField} (member : field ∈ fields) :
    Table.Fits (Table.widths (fields.map row)) field.row :=
  Table.fits_widths (List.mem_map_of_mem member)

theorem ClassField.exists_longest {fields : List ClassField} (filled : fields ≠ []) :
    ∃ longest, (fields.map fun field => field.name.length).max? = some longest ∧
      (Table.widths (fields.map row)).getD 0 0 = longest + 2 := by
  have column : 0 < (Table.widths (fields.map row)).length := by
    obtain ⟨first, rest, rfl⟩ := List.exists_cons_of_ne_nil filled
    obtain ⟨inside, -⟩ := List.getElem?_eq_some_iff.1 first.row_head
    exact Nat.lt_of_lt_of_le inside (fits_row List.mem_cons_self).length_le
  obtain ⟨widest, member, cell, here, width⟩ := Table.exists_widest column
  obtain ⟨field, held, rfl⟩ := List.mem_map.1 member
  rw [field.row_head, Option.some.injEq] at here
  rw [← here, (cellWidths field.name "" "").1] at width
  refine ⟨field.name.length, List.max?_eq_some_iff.2 ⟨List.mem_map.2 ⟨field, held, rfl⟩, ?_⟩,
    width.symm⟩
  intro length inside
  obtain ⟨other, also, rfl⟩ := List.mem_map.1 inside
  have narrower := (fits_row also).cellWidth_le other.row_head
  rw [(cellWidths other.name "" "").1, ← width] at narrower
  exact Nat.le_of_add_le_add_right narrower

theorem ClassField.exists_columns {fields : List ClassField} (filled : fields ≠ []) :
    ∃ longest middle stop, (fields.map fun field => field.name.length).max? = some longest ∧
      ∀ (i : Nat) (field : ClassField), fields[i]? = some field →
        ∃ text, (Table.align (fields.map row))[i]? = some text ∧
          field.Stands (longest + 2) middle stop text := by
  obtain ⟨longest, most, width⟩ := exists_longest filled
  generalize held : Table.widths (fields.map row) = widths at width
  refine ⟨longest, longest + 2 + widths.getD 1 0, longest + 2 + widths.getD 1 0 + widths.getD 2 0,
    most, fun i field here => ⟨Table.alignRow widths field.row, ?_, ?_⟩⟩
  · simp [Table.align, here, held]
  · rw [← width, ← held]
    exact stands_alignRow (fits_row (List.mem_of_getElem? here))

namespace ClassDef

def aboveFields (c : ClassDef) (depth : Nat) : List Line :=
  linesAt depth (c.decorators.map ("@" ++ ·) ++ [c.headLine]) ++ docLayout c.doc (depth + 1)

theorem aboveFields_ne_nil (c : ClassDef) (depth : Nat) : c.aboveFields depth ≠ [] := by
  simp [aboveFields, linesAt]

theorem layout_fields (c : ClassDef) (depth : Nat) : ∃ rest, rest ≠ [] ∧ c.layout depth =
    c.aboveFields depth ++ (linesAt (depth + 1) (Table.align (c.fields.map ClassField.row)) ++ rest) := by
  refine ⟨layoutMethods (c.doc == "" && c.fields.isEmpty) c.methods (depth + 1) ++
    linesAt (depth + 1)
      (if c.doc = "" ∧ c.fields = [] ∧ c.methods = [] then ["pass"] else []) ++
    linesAt depth [""], by simp [linesAt], by simp [layout, aboveFields]⟩

end ClassDef

end Code

namespace Section

theorem fragments_laid_append {lines : List Line} (filled : lines ≠ []) (s : Section)
    (others : List Line) :
    ∃ new, (s.laid (lines ++ others)).fragments =
      s.fragments ++ s.rowLines ++ new ++ others.map .line ∧ new.length = lines.length := by
  obtain ⟨first, rest, rfl⟩ := List.exists_cons_of_ne_nil filled
  exact ⟨.line ⟨first.depth, String.join s.raw ++ first.text⟩ :: rest.map .line, by simp [laid], by simp⟩

theorem rows_laid {lines : List Line} (filled : lines ≠ []) (s : Section) :
    (s.laid lines).rows = [] := by
  obtain ⟨first, rest, rfl⟩ := List.exists_cons_of_ne_nil filled
  rfl

end Section

namespace Document

open Code

theorem isConcrete_of_emitted {node : Node} {d : Document} {b : Nat}
    (accepted : ((Step.act b (.command (.emit node))).run d).1.fault = none) :
    node.isConcrete = true := by
  rw [Step.run, (Action.answer_command_eq b (.emit node) d).2] at accepted
  exact refusal_eq_none.1 (node.fault_course.symm.trans accepted)

theorem get_emitted {node : Node} {d : Document} {b : Nat} (inside : b < d.size)
    (accepted : ((Step.act b (.command (.emit node))).run d).1.fault = none) :
    ((Step.act b (.command (.emit node))).run d).2.get b =
      (d.get b).laid (node.layout (d.get b).depth) := by
  have concrete := isConcrete_of_emitted accepted
  have taken := (node.takes_emit (d.get b)).run_lays
    (node.fault_course.trans (refusal_eq_none.2 concrete)) (Node.lays_course concrete)
  have run : (Command.emit node).run (d.get b) = .ok .none _ := bind_of_ok taken
  simp only [Step.run, Action.answer, Action.run, inSection_of_ok run, get_put_self inside]

/-- The fields of a class that is emitted are lines one below the other, right below its documentation and
one level deeper than it. They are aligned as a table of their own, whatever waited in the section and
whatever else the class has. Its annotations begin behind the longest name, all initial values at one
offset, where the lines without one end, and the lines with one are equally long. -/
theorem fields_aligned {c : ClassDef} (filled : c.fields ≠ []) {d : Document} {b : Nat}
    (inside : b < d.size)
    (accepted : ((Step.act b (.command (.emit (.classDef c)))).run d).1.fault = none) :
    let s := d.get b
    let t := ((Step.act b (.command (.emit (.classDef c)))).run d).2.get b
    let texts := Table.align (c.fields.map ClassField.row)
    (∃ above below, t.fragments = s.fragments ++ s.rowLines ++ above ++
        texts.map (fun text => .line ⟨s.depth + 1, text⟩) ++ below ∧
      above.length = (c.aboveFields s.depth).length ∧ below ≠ []) ∧
    t.rows = [] ∧
    texts.length = c.fields.length ∧
    ∃ longest middle stop, (c.fields.map fun field => field.name.length).max? = some longest ∧
      ∀ (i : Nat) (field : ClassField), c.fields[i]? = some field → ∃ text, texts[i]? = some text ∧
        field.Stands (longest + 2) middle stop text ∧
        text.length = if field.initial.isSome then stop else middle := by
  intro s t texts
  have written : t = s.laid (c.layout s.depth) := get_emitted inside accepted
  obtain ⟨rest, more, layout⟩ := c.layout_fields s.depth
  obtain ⟨above, fragments, length⟩ := Section.fragments_laid_append (c.aboveFields_ne_nil s.depth) s
    (linesAt (s.depth + 1) texts ++ rest)
  rw [← layout, ← written] at fragments
  refine ⟨⟨above, rest.map .line, ?_, length, by simpa using more⟩, ?_, by simp [texts, Table.align], ?_⟩
  · rw [fragments]
    simp [linesAt, Function.comp_def]
  · rw [written, layout]
    exact Section.rows_laid (by simp [c.aboveFields_ne_nil]) s
  · obtain ⟨longest, middle, stop, most, columns⟩ := ClassField.exists_columns filled
    refine ⟨longest, middle, stop, most, fun i field here => ?_⟩
    obtain ⟨text, held, stands⟩ := columns i field here
    exact ⟨text, held, stands, stands.length⟩

/-- A class of which one field has an initial value and one a longer annotation, with a method, to a
section in which a row waits that would be wider than both. -/
theorem fields_aligned_waiting :
    let c : ClassDef :=
      { name := "C", doc := "d", decorators := ["e"]
        fields := [{ name := "x", annotation := "int", initial := some "0" },
          { name := "label", annotation := "float" }]
        methods := [{ name := "f" }] }
    let d := (Step.runAll [.act 0 (.command .indent), .act 0 (.command (.write "a")),
      .act 0 (.command (.queueRow (.each [some "a long row", none, some "b"])))] (.new none)).2
    let e := ((Step.act 0 (.command (.emit (.classDef c)))).run d).2
    c.fields ≠ [] ∧ 0 < d.size ∧ ((Step.act 0 (.command (.emit (.classDef c)))).run d).1.fault = none ∧
      (∃ above below, (e.get 0).fragments = (d.get 0).fragments ++ (d.get 0).rowLines ++ above ++
        ["x:     int  = 0", "label: float"].map (fun text => .line ⟨2, text⟩) ++ below) ∧
      ∃ longest middle stop, (c.fields.map fun field => field.name.length).max? = some longest ∧
        ∃ text, (Table.align (c.fields.map ClassField.row))[1]? = some text ∧
          ClassField.Stands (longest + 2) middle stop { name := "label", annotation := "float" } text := by
  intro c d e
  have filled : c.fields ≠ [] := by decide
  have inside : 0 < d.size := by decide
  have accepted : ((Step.act 0 (.command (.emit (.classDef c)))).run d).1.fault = none := by
    decide +kernel
  have texts : Table.align (c.fields.map ClassField.row) = ["x:     int  = 0", "label: float"] := by
    decide +kernel
  obtain ⟨⟨above, below, fragments, -⟩, -, -, longest, middle, stop, most, columns⟩ :=
    fields_aligned filled inside accepted
  obtain ⟨text, here, stands, -⟩ := columns 1 _ rfl
  rw [texts] at fragments
  exact ⟨filled, inside, accepted, ⟨above, below, fragments⟩, longest, middle, stop, most, text, here,
    stands⟩

end Document

end IndentedText
