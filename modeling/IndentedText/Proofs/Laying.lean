import IndentedText.Code.Layout
import IndentedText.Proofs.Run

/-!
Courses that write lines. All that waits in the section comes before them: the rows in lines of their
own, the raw text at the beginning of the first. Code is written by such courses, and is refused if it
is not concrete.
-/

namespace IndentedText

open Code
open Section (Change)

namespace Section

/-- The section once the lines are written to it, each at its own depth. -/
def laid (s : Section) : List Line → Section
  | [] => s
  | first :: rest =>
    { s with
      written := s.written + (rest.length + 1)
      fragments := s.fragments ++ s.rowLines ++
        .line ⟨first.depth, String.join s.raw ++ first.text⟩ :: rest.map .line
      rows := []
      raw := []
      pending := false }

@[simp] theorem laid_nil (s : Section) : s.laid [] = s := rfl

@[simp] theorem laid_unit (s : Section) (lines : List Line) : (s.laid lines).unit = s.unit := by
  cases lines <;> rfl

@[simp] theorem laid_depth (s : Section) (lines : List Line) : (s.laid lines).depth = s.depth := by
  cases lines <;> rfl

@[simp] theorem laid_visible (s : Section) (lines : List Line) :
    (s.laid lines).visible = s.visible := by
  cases lines <;> rfl

@[simp] theorem laid_written (s : Section) (lines : List Line) :
    (s.laid lines).written = s.written + lines.length := by
  cases lines <;> rfl

theorem Settled.laid {s : Section} (settled : s.Settled) (lines : List Line) : (s.laid lines).Settled := by
  cases lines with
  | nil => exact settled
  | cons first rest => exact ⟨fun _ => rfl, fun _ => rfl⟩

theorem nested_mem_laid {s : Section} {lines : List Line} {child : Nat} :
    .nested child ∈ (s.laid lines).fragments ↔ .nested child ∈ s.fragments := by
  cases lines <;> simp [laid, rowLines]

theorem laid_keep (s : Section) (lines : List Line) :
    { s.laid lines with depth := s.depth } = s.laid lines := by
  cases lines <;> rfl

/-- Once a line is written nothing waits, so the depth from then on has no bearing on it. -/
theorem laid_laid {lines : List Line} (filled : lines ≠ []) (s : Section) (depth : Nat)
    (others : List Line) :
    ({ s.laid lines with depth } : Section).laid others =
      { s.laid (lines ++ others) with depth } := by
  cases lines with
  | nil => exact absurd rfl filled
  | cons first rest =>
    cases others with
    | nil => simp
    | cons other others => simp [laid, rowLines, Table.align]; omega

theorem laid_append (s : Section) (lines others : List Line) :
    (s.laid lines).laid others = s.laid (lines ++ others) := by
  by_cases empty : lines = []
  · simp [empty]
  · rw [← laid_keep s lines, laid_laid empty, laid_keep]

theorem laid_queued {s : Section} (rows : s.rows = []) (raw : s.raw = []) (table : Table)
    (pending : Bool) {lines : List Line} (filled : lines ≠ []) :
    ({ s with rows := table, written := s.written + table.length, pending } : Section).laid lines =
      s.laid (linesAt s.depth table.align ++ lines) := by
  obtain ⟨first, rest, rfl⟩ := List.exists_cons_of_ne_nil filled
  cases table with
  | nil => simp [laid, rowLines, Table.align, linesAt, rows]
  | cons row table =>
    simp [laid, rowLines, Table.align, linesAt, rows, raw, Function.comp_def]
    omega

theorem content_laid {s : Section} (pending : s.pending = false) (rows : s.rows = [])
    (raw : s.raw = []) (lines : List Line) :
    (s.laid lines).content = s.fragments ++ lines.map .line := by
  cases lines with
  | nil => simp [content_of_not_pending pending rows]
  | cons first rest => simp [laid, content, rowLines, rawLines, Table.align, rows, raw]

end Section

namespace Course

open Section

/-- Begun `start` levels above some base, the course writes the lines that belong to the base and ends
`stop` levels above it. -/
def Lays (course : Course) (start stop : Nat) (lines : Nat → List Line) : Prop :=
  ∀ (base : Nat) (s : Section), s.depth = base + start →
    s.after course.changes = { s.laid (lines base) with depth := base + stop }

variable {first next course : Course} {start middle stop : Nat} {lines others : Nat → List Line}

theorem Lays.congr (lays : course.Lays start stop lines) (same : ∀ base, lines base = others base) :
    course.Lays start stop others := by
  intro base s level
  rw [← same base]
  exact lays base s level

theorem Lays.raise (lays : course.Lays start stop lines) (n : Nat) :
    course.Lays (start + n) (stop + n) fun base => lines (base + n) := by
  intro base s level
  rw [lays (base + n) s (by omega), Nat.add_right_comm, Nat.add_assoc]

theorem changes_andThen (done : first.fault = none) (next : Course) :
    (first.andThen next).changes = first.changes ++ next.changes := by
  simp [Course.andThen, done]

@[simp] theorem fault_andThen (first next : Course) :
    (first.andThen next).fault = first.fault.or next.fault := by
  cases done : first.fault <;> simp [Course.andThen, done]

@[simp] theorem fault_stay : stay.fault = none := rfl

@[simp] theorem fault_line (text : String) : (line text).fault = none := rfl

@[simp] theorem fault_openBlock (text : String) : (openBlock text).fault = none := rfl

@[simp] theorem fault_outdent (depth : Nat) : (outdent (depth + 1)).fault = none := rfl

@[simp] theorem fault_closeBlock (text : String) (depth : Nat) :
    (closeBlock text (depth + 1)).fault = none := rfl

theorem fault_all {courses : List Course} (h : ∀ course ∈ courses, course.fault = none) :
    (all courses).fault = none := by
  induction courses with
  | nil => rfl
  | cons course rest ih =>
    have done := h course (by simp)
    simpa [all, done] using ih fun other member => h other (by simp [member])

@[simp] theorem fault_lines (text : α → String) (items : List α) :
    (all (items.map fun item => line (text item))).fault = none :=
  fault_all (by simp)

theorem Lays.opens (h : first.Lays start middle lines) (filled : ∀ base, lines base ≠ [])
    (done : first.fault = none) (k : next.Lays middle stop others) :
    (first.andThen next).Lays start stop fun base => lines base ++ others base := by
  intro base s level
  rw [changes_andThen done, after_append, h base s level, k base _ rfl, laid_laid (filled base)]

theorem Lays.andThen (h : first.Lays start start lines) (done : first.fault = none)
    (k : next.Lays start stop others) :
    (first.andThen next).Lays start stop fun base => lines base ++ others base := by
  intro base s level
  rw [changes_andThen done, after_append, h base s level]
  by_cases empty : lines base = []
  · simpa [empty, ← level] using k base s level
  · rw [k base _ rfl, laid_laid empty]

theorem lays_stay (n : Nat) : stay.Lays n n fun _ => [] := by
  intro base s level
  simp [stay, ← level]

theorem lays_line (text : String) : (line text).Lays 0 0 fun depth => [⟨depth, text⟩] := by
  intro base s level
  simp [line, Change.apply, write, commit, commitRows, laid, rowLines, level]

theorem lays_openBlock (text : String) : (openBlock text).Lays 0 1 fun depth => [⟨depth, text⟩] := by
  intro base s level
  simp [openBlock, line, Course.andThen, Change.apply, write, commit, commitRows, laid, rowLines,
    indent, level]

theorem lays_outdent : (outdent 1).Lays 1 0 fun _ => [] := by
  intro base s level
  simp [outdent, Change.apply, level]

theorem lays_closeBlock (text : String) :
    (closeBlock text 1).Lays 1 0 fun depth => [⟨depth, text⟩] := by
  intro base s level
  simp [closeBlock, outdent, line, Course.andThen, Change.apply, write, commit, commitRows, laid,
    rowLines, Table.align, level]

theorem lays_turnBlock (text : String) :
    (turnBlock text 1).Lays 1 1 fun depth => [⟨depth, text⟩] := by
  intro base s level
  simp [turnBlock, closeBlock, outdent, line, Course.andThen, Change.apply, write, commit, commitRows,
    laid, rowLines, Table.align, indent, level]

theorem Lays.all {course : α → Course} {lines : α → Nat → List Line} {items : List α}
    (h : ∀ item ∈ items, (course item).fault = none ∧ (course item).Lays 0 0 (lines item)) :
    (all (items.map course)).Lays 0 0 fun depth => items.flatMap (lines · depth) := by
  induction items with
  | nil => exact lays_stay 0
  | cons item rest ih =>
    obtain ⟨done, lays⟩ := h item (by simp)
    exact lays.andThen done (ih fun other member => h other (by simp [member]))

theorem lays_lines (text : α → String) (items : List α) :
    (all (items.map fun item => line (text item))).Lays 0 0 fun depth =>
      linesAt depth (items.map text) := by
  refine Lays.congr (.all fun item _ => ⟨rfl, lays_line (text item)⟩) fun depth => ?_
  simp [linesAt, ← List.map_eq_flatMap]

def queued (rows : List Row) : Course :=
  all (rows.map fun row => ⟨[.queueRow (.each row)], none⟩)

@[simp] theorem fault_queued (rows : List Row) : (queued rows).fault = none :=
  fault_all (by simp)

theorem after_queued (rows : List Row) (s : Section) : ∃ pending,
    s.after (queued rows).changes =
      { s with rows := s.rows ++ rows, written := s.written + rows.length, pending } := by
  induction rows generalizing s with
  | nil => exact ⟨s.pending, by simp [queued, all, stay]⟩
  | cons row rest ih =>
    obtain ⟨pending, queue⟩ := ih (s.queueRow (.each row))
    refine ⟨pending, ?_⟩
    change (s.queueRow (.each row)).after (queued rest).changes = _
    rw [queue]
    simp [queueRow]
    omega

/-- Rows that are queued after a line become lines with what is written next, aligned with one
another only. -/
theorem Lays.rows (h : first.Lays start middle lines) (filled : ∀ base, lines base ≠ [])
    (done : first.fault = none) (rows : List Row) (k : next.Lays middle stop others)
    (more : ∀ base, others base ≠ []) :
    (first.andThen ((queued rows).andThen next)).Lays start stop fun base =>
      lines base ++ (linesAt (base + middle) (Table.align rows) ++ others base) := by
  intro base s level
  -- The line before the rows has taken all that waited, so the rows find nothing there.
  have clean : (s.laid (lines base)).rows = [] ∧ (s.laid (lines base)).raw = [] := by
    obtain ⟨line, rest, laid⟩ := List.exists_cons_of_ne_nil (filled base)
    simp [laid, Section.laid]
  obtain ⟨pending, queue⟩ := after_queued rows { s.laid (lines base) with depth := base + middle }
  rw [changes_andThen done, changes_andThen (fault_queued rows), after_append, after_append,
    h base s level, queue, k base _ rfl]
  simp only [clean.1, List.nil_append]
  rw [laid_queued (s := { s.laid (lines base) with depth := base + middle }) clean.1 clean.2 rows
    pending (more base), laid_laid (filled base)]

end Course

theorem SectionM.Takes.run_lays {x : SectionM Unit} {s : Section} {course : Course}
    {lines : Nat → List Line} (taken : Takes x s course) (done : course.fault = none)
    (lays : course.Lays 0 0 lines) : x s = .ok () (s.laid (lines s.depth)) := by
  obtain ⟨value, run⟩ := taken.ok done
  rw [run, lays s.depth s rfl, Nat.add_zero, Section.laid_keep]

namespace Code

def refusal (concrete : Bool) : Option Fault :=
  if concrete then none else some .abstractStatement

@[simp] theorem refusal_true : refusal true = none := rfl

theorem refusal_and (left right : Bool) :
    refusal (left && right) = (refusal left).or (refusal right) := by
  cases left <;> cases right <;> rfl

theorem fault_all_refusal {course : α → Course} {concrete : α → Bool}
    (h : ∀ item, (course item).fault = refusal (concrete item)) (items : List α) :
    (Course.all (items.map course)).fault = refusal (items.all concrete) := by
  induction items with
  | nil => rfl
  | cons item rest ih =>
    rw [List.all_cons, refusal_and, ← h, ← ih]
    exact Course.fault_andThen ..

theorem refusal_eq_none {concrete : Bool} : refusal concrete = none ↔ concrete = true := by
  cases concrete <;> simp [refusal]

namespace Statement

mutual

theorem fault_course : ∀ statement : Statement, statement.course.fault = refusal statement.isConcrete
  | pass | assign .. | ret .. | call .. => by
    rw [course]
    simp [isConcrete]
  | abstract => by
    rw [course, isConcrete]
    rfl
  | branch condition body orElse => by
    have orElse : (if orElse.isEmpty then Course.stay
        else (Course.turnBlock "else:" 1).andThen (bodyCourse orElse)).fault =
          refusal (allConcrete orElse) := by
      cases orElse with
      | nil => rfl
      | cons statement rest => exact fault_bodyCourse (statement :: rest)
    rw [course, isConcrete, refusal_and]
    simp only [Course.fault_andThen, Course.fault_openBlock, Course.fault_outdent,
      fault_bodyCourse body, orElse, Option.none_or, Option.or_none]
  | loop target iterable body => by
    rw [course, isConcrete]
    exact (Course.fault_andThen ..).trans (fault_bodyCourse body)

theorem fault_bodyCourse : ∀ body : List Statement,
    (bodyCourse body).fault = refusal (allConcrete body)
  | [] => rfl
  | statement :: rest => by
    rw [bodyCourse, allConcrete, refusal_and, Course.fault_andThen, fault_course statement,
      fault_allCourse rest]

theorem fault_allCourse : ∀ body : List Statement,
    (allCourse body).fault = refusal (allConcrete body)
  | [] => rfl
  | statement :: rest => by
    rw [allCourse, allConcrete, refusal_and, Course.fault_andThen, fault_course statement,
      fault_allCourse rest]

end

end Statement

theorem fault_docCourse (doc : String) : (docCourse doc).fault = none := by
  unfold docCourse
  split
  · rfl
  · have lines : (Course.all ((Text.lines (Text.trim doc)).map .line)).fault = none :=
      Course.fault_lines id _
    simp [lines]

theorem lays_docCourse (doc : String) : (docCourse doc).Lays 0 0 (docLayout doc) := by
  unfold docCourse
  by_cases h : doc = ""
  · rw [if_pos h]
    exact (Course.lays_stay 0).congr fun depth => by simp [docLayout, h]
  · rw [if_neg h]
    refine ((Course.lays_line "\"\"\"").andThen rfl
      ((Course.lays_lines id (Text.lines (Text.trim doc))).andThen (Course.fault_lines ..)
        (Course.lays_line "\"\"\""))).congr fun depth => ?_
    simp [docLayout, h, linesAt]

theorem run_emitDoc (doc : String) (s : Section) :
    emitDoc doc s = .ok () (s.laid (docLayout doc s.depth)) :=
  (takes_emitDoc doc s).run_lays (fault_docCourse doc) (lays_docCourse doc)

theorem FunctionDef.fault_course (f : FunctionDef) : f.course.fault = refusal f.isConcrete := by
  have body : (if !f.body.isEmpty || f.doc == "" then Statement.bodyCourse f.body else .stay).fault =
      refusal f.isConcrete := by
    split
    · exact Statement.fault_bodyCourse f.body
    · rename_i documented
      have empty : f.body = [] := by simp_all
      rw [isConcrete, empty]
      rfl
  simp only [course, Course.fault_andThen, Course.fault_lines, Course.fault_openBlock, fault_docCourse,
    body, Course.fault_outdent, Option.none_or, Option.or_none]

namespace ClassDef

theorem fault_methodsCourse (first : Bool) (methods : List FunctionDef) :
    (methodsCourse first methods).fault = refusal (methods.all FunctionDef.isConcrete) := by
  induction methods generalizing first with
  | nil => rfl
  | cons method rest ih =>
    have blank : (if first then Course.stay else .line "").fault = none := by cases first <;> rfl
    rw [methodsCourse, List.all_cons, refusal_and, Course.fault_andThen, Course.fault_andThen, blank,
      method.fault_course, ih]
    rfl

theorem fault_course (c : ClassDef) : c.course.fault = refusal c.isConcrete := by
  have fields : (Course.all (c.fields.map fun field => ⟨[.queueRow (.each field.row)], none⟩)).fault = none :=
    Course.fault_all (by simp)
  have filler : (if c.methods.isEmpty && c.fields.isEmpty && c.doc == "" then Course.line "pass"
      else .stay).fault = none := by split <;> rfl
  simp only [course, isConcrete, Course.fault_andThen, Course.fault_lines, Course.fault_openBlock,
    fault_docCourse, fields, fault_methodsCourse, filler, Course.fault_closeBlock, Option.none_or,
    Option.or_none]

end ClassDef

theorem Node.fault_course : ∀ node : Node, node.course.fault = refusal node.isConcrete
  | .statement s => s.fault_course
  | .function f => f.fault_course
  | .classDef c => c.fault_course

end Code

end IndentedText
