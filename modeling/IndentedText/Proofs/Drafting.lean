import IndentedText.Code.Draft
import IndentedText.Proofs.Laying

/-!
Emission writes the draft of its code up to the first gap, and is refused there. The section is left as
deep as it is inside all the branches, functions and classes around the gap, which would only have been
closed at their ends; a loop is closed in any case.
-/

namespace IndentedText

open Code

namespace Code.Draft

def before : Draft → List Line
  | [] => []
  | .line l :: rest => l :: before rest
  | .gap .. :: _ => []

/-- How many branches, functions and classes are around the first gap, if there is one. -/
def around? : Draft → Option Nat
  | [] => none
  | .line _ :: rest => around? rest
  | .gap _ around :: _ => some around

theorem before_append (draft others : Draft) :
    before (draft ++ others) = before draft ++ if (around? draft).isSome then [] else before others := by
  induction draft with
  | nil => rfl
  | cons item rest ih =>
    cases item with
    | line l => exact congrArg (l :: ·) ih
    | gap depth around => rfl

@[simp] theorem around?_append (draft others : Draft) :
    around? (draft ++ others) = (around? draft).or (around? others) := by
  induction draft with
  | nil => rfl
  | cons item rest ih =>
    cases item with
    | line l => exact ih
    | gap depth around => rfl

@[simp] theorem before_lines (lines : List Line) : before (lines.map .line) = lines := by
  induction lines with
  | nil => rfl
  | cons l rest ih => exact congrArg (l :: ·) ih

@[simp] theorem around?_lines (lines : List Line) : around? (lines.map .line) = none := by
  induction lines with
  | nil => rfl
  | cons l rest ih => exact ih

@[simp] theorem before_enclose (draft : Draft) : before (draft.map .enclose) = before draft := by
  induction draft with
  | nil => rfl
  | cons item rest ih =>
    cases item with
    | line l => exact congrArg (l :: ·) ih
    | gap depth around => rfl

@[simp] theorem around?_enclose (draft : Draft) :
    around? (draft.map .enclose) = (around? draft).map (· + 1) := by
  induction draft with
  | nil => rfl
  | cons item rest ih =>
    cases item with
    | line l => exact ih
    | gap depth around => rfl

end Code.Draft

namespace Course

open Section Draft

/-- The course writes the draft up to its first gap. If there is one, it is refused there and stays as
deep as the gap is in what is around it; if not, it ends `stop` levels above the base. -/
def Drafts (course : Course) (start stop : Nat) (draft : Nat → Draft) : Prop :=
  ∃ gap : Option Nat, (∀ base, around? (draft base) = gap) ∧
    course.fault = gap.map (fun _ => .abstractStatement) ∧
    course.Lays start (gap.getD stop) fun base => before (draft base)

variable {first next course : Course} {start middle stop : Nat} {lines : Nat → List Line}
  {draft others : Nat → Draft}

theorem Drafts.congr (drafts : course.Drafts start stop draft)
    (same : ∀ base, draft base = others base) : course.Drafts start stop others := by
  have equal : draft = others := funext same
  rwa [← equal]

theorem Lays.drafts (lays : course.Lays start stop lines) (done : course.fault = none) :
    course.Drafts start stop fun base => (lines base).map .line := by
  refine ⟨none, fun base => around?_lines _, done, ?_⟩
  exact lays.congr fun base => (before_lines _).symm

theorem Drafts.lays (drafts : course.Drafts start stop fun base => (lines base).map .line) :
    course.Lays start stop lines := by
  obtain ⟨gap, same, -, lays⟩ := drafts
  cases gap with
  | none => exact lays.congr fun base => before_lines _
  | some around =>
    have none := same 0
    rw [around?_lines] at none
    cases none

theorem andThen_of_fault {fault : Fault} (refused : first.fault = some fault) (next : Course) :
    first.andThen next = first := by
  obtain ⟨changes, other⟩ := first
  cases refused
  rfl

theorem Drafts.andThen (h : first.Drafts start start draft) (k : next.Drafts start stop others) :
    (first.andThen next).Drafts start stop fun base => draft base ++ others base := by
  obtain ⟨gap, same, fault, lays⟩ := h
  obtain ⟨further, also, refused, more⟩ := k
  cases gap with
  | none =>
    refine ⟨further, fun base => by simp [same, also], by simp [fault, refused], ?_⟩
    refine (Lays.andThen lays fault more).congr fun base => ?_
    rw [before_append, same]
    rfl
  | some around =>
    -- The first course is refused at its gap, so the second is not begun.
    rw [andThen_of_fault fault]
    refine ⟨some around, fun base => by simp [same], fault, ?_⟩
    refine lays.congr fun base => ?_
    rw [before_append, same]
    simp

theorem Drafts.opens (h : first.Lays start middle lines) (filled : ∀ base, lines base ≠ [])
    (done : first.fault = none) (k : next.Drafts middle stop draft) :
    (first.andThen next).Drafts start stop fun base => (lines base).map .line ++ draft base := by
  obtain ⟨gap, same, fault, lays⟩ := k
  refine ⟨gap, fun base => by simp [same], by simp [done, fault], ?_⟩
  refine (h.opens filled done lays).congr fun base => ?_
  simp [before_append]

theorem Drafts.rows (h : first.Lays start middle lines) (filled : ∀ base, lines base ≠ [])
    (done : first.fault = none) (rows : List Row) (k : next.Drafts middle stop draft)
    (more : ∀ base, before (draft base) ≠ []) :
    (first.andThen ((queued rows).andThen next)).Drafts start stop fun base =>
      (lines base ++ linesAt (base + middle) (Table.align rows)).map .line ++ draft base := by
  obtain ⟨gap, same, fault, lays⟩ := k
  refine ⟨gap, fun base => by simp [same], by simp [done, fault], ?_⟩
  refine (h.rows filled done rows lays more).congr fun base => ?_
  simp [before_append]

theorem Drafts.enclose (h : course.Drafts 0 0 draft) :
    course.Drafts 1 1 fun base => (draft (base + 1)).map .enclose := by
  obtain ⟨gap, same, fault, lays⟩ := h
  refine ⟨gap.map (· + 1), fun base => by simp [same], by simp [fault, Function.comp_def], ?_⟩
  have level : (gap.map (· + 1)).getD 1 = gap.getD 0 + 1 := by cases gap <;> rfl
  rw [level]
  exact (lays.raise 1).congr fun base => by simp

/-- A loop steps out again even where it is refused. -/
theorem Drafts.loop (text : String) (h : course.Drafts 0 0 draft) :
    ((line text).andThen course.within).Drafts 0 0 fun base =>
      .line ⟨base, text⟩ :: draft (base + 1) := by
  obtain ⟨gap, same, fault, lays⟩ := h
  refine ⟨gap, fun base => same (base + 1), fault, fun base s level => ?_⟩
  have opened := (lays_openBlock text).opens (by simp) rfl (lays.raise 1)
  have changes : ((line text).andThen course.within).changes =
      ((openBlock text).andThen course).changes ++ [.outdent] := by
    simp [Course.andThen, line, openBlock, within]
  rw [changes, after_append, opened base s level]
  rfl

end Course

namespace Code

open Draft

namespace Statement

mutual

theorem drafts_course : ∀ statement : Statement, statement.course.Drafts 0 0 statement.draft
  | pass | assign .. | ret .. | call .. => by
    rw [course]
    refine ((Course.lays_line _).drafts rfl).congr fun depth => ?_
    simp only [draft, layout]
  | abstract => by
    rw [course]
    refine ⟨some 0, fun base => by rw [draft, around?], rfl, fun base s level => ?_⟩
    simp [draft, before, ← level]
  | branch condition body orElse => by
    have last : ((if orElse.isEmpty then Course.stay
        else (Course.turnBlock "else:" 1).andThen (bodyCourse orElse)).andThen
          (.outdent 1)).Drafts 1 0 fun base => if orElse.isEmpty then []
            else .line ⟨base, "else:"⟩ :: (draftBody orElse (base + 1)).map .enclose := by
      cases orElse.isEmpty with
      | true => exact Course.lays_outdent.drafts rfl
      | false =>
        refine Course.Drafts.congr (.andThen (.opens (Course.lays_turnBlock "else:") (by simp) rfl
          (drafts_bodyCourse orElse).enclose) (Course.lays_outdent.drafts rfl)) fun base => ?_
        simp
    rw [course]
    refine Course.Drafts.congr (.opens (Course.lays_openBlock _) (by simp) rfl
      ((drafts_bodyCourse body).enclose.andThen last)) fun depth => ?_
    rw [draft]
    rfl
  | loop target iterable body => by
    rw [course]
    refine ((drafts_bodyCourse body).loop _).congr fun depth => ?_
    rw [draft]

theorem drafts_bodyCourse : ∀ body : List Statement, (bodyCourse body).Drafts 0 0 (draftBody body)
  | [] => by
    refine ((Course.lays_line "pass").drafts rfl).congr fun depth => ?_
    rw [draftBody]
    rfl
  | statement :: rest => by
    rw [bodyCourse]
    refine ((drafts_course statement).andThen (drafts_allCourse rest)).congr fun depth => ?_
    rw [draftBody]

theorem drafts_allCourse : ∀ body : List Statement, (allCourse body).Drafts 0 0 (draftAll body)
  | [] => by
    refine ((Course.lays_stay 0).drafts rfl).congr fun depth => ?_
    rw [draftAll]
    rfl
  | statement :: rest => by
    rw [allCourse]
    refine ((drafts_course statement).andThen (drafts_allCourse rest)).congr fun depth => ?_
    rw [draftAll]

end

end Statement

namespace FunctionDef

theorem drafts_course (f : FunctionDef) : f.course.Drafts 0 0 f.draft := by
  have body : ((if !f.body.isEmpty || f.doc == "" then Statement.bodyCourse f.body
      else .stay).andThen (.outdent 1)).Drafts 1 0 fun base =>
        if f.body = [] ∧ f.doc ≠ "" then []
        else (Statement.draftBody f.body (base + 1)).map .enclose := by
    have documented : (!f.body.isEmpty || f.doc == "") = true ↔ ¬ (f.body = [] ∧ f.doc ≠ "") := by
      grind
    simp only [documented, ite_not]
    split
    · exact Course.lays_outdent.drafts rfl
    · refine ((Statement.drafts_bodyCourse f.body).enclose.andThen
        (Course.lays_outdent.drafts rfl)).congr fun base => ?_
      simp
  have head := ((Course.lays_lines ("@" ++ ·) f.decorators).andThen (Course.fault_lines ..)
    (Course.lays_openBlock f.headLine)).opens (by simp) (by simp) ((lays_docCourse f.doc).raise 1)
  have whole := Course.Drafts.opens head (by simp) (by simp [fault_docCourse]) body
  rw [Course.andThen_assoc, Course.andThen_assoc] at whole
  refine whole.congr fun depth => ?_
  simp [draft, linesAt]

end FunctionDef

namespace ClassDef

theorem drafts_methodsCourse (first : Bool) (methods : List FunctionDef) :
    (methodsCourse first methods).Drafts 0 0 (draftMethods first methods) := by
  induction methods generalizing first with
  | nil => exact (Course.lays_stay 0).drafts rfl
  | cons method rest ih =>
    have blank : (if first then Course.stay else .line "").Drafts 0 0 fun depth =>
        (linesAt depth (if first then [] else [""])).map .line := by
      cases first with
      | true => exact (Course.lays_stay 0).drafts rfl
      | false => exact (Course.lays_line "").drafts rfl
    refine (blank.andThen (method.drafts_course.andThen (ih false))).congr fun depth => ?_
    simp [draftMethods]

theorem exists_draftMethods_eq_cons (first : Bool) (method : FunctionDef) (rest : List FunctionDef)
    (depth : Nat) : ∃ l others, draftMethods first (method :: rest) depth = .line l :: others := by
  cases first with
  | true => cases h : method.decorators <;> simp [draftMethods, FunctionDef.draft, linesAt, h]
  | false => simp [draftMethods, linesAt]

/-- Whatever stands in a class, there is a line behind its fields. -/
theorem before_ne_nil (c : ClassDef) (first : Bool) (depth : Nat) {last : List Line} (filled : last ≠ []) :
    before ((draftMethods first c.methods depth).map .enclose ++ last.map .line) ≠ [] := by
  cases c.methods with
  | nil => simpa [draftMethods] using filled
  | cons method rest =>
    obtain ⟨l, others, draft⟩ := exists_draftMethods_eq_cons first method rest depth
    rw [draft]
    exact List.cons_ne_nil l _

theorem drafts_course (c : ClassDef) : c.course.Drafts 0 0 c.draft := by
  have head := ((Course.lays_lines ("@" ++ ·) c.decorators).andThen (Course.fault_lines ..)
    (Course.lays_openBlock c.headLine)).opens (by simp) (by simp) ((lays_docCourse c.doc).raise 1)
  have filler : ((if c.methods.isEmpty && c.fields.isEmpty && c.doc == "" then Course.line "pass"
      else .stay).andThen (.closeBlock "" 1)).Drafts 1 0 fun base =>
        (linesAt (base + 1)
          (if c.doc = "" ∧ c.fields = [] ∧ c.methods = [] then ["pass"] else []) ++
            linesAt base [""]).map .line := by
    have bare : (c.methods.isEmpty && c.fields.isEmpty && c.doc == "") = true ↔
        c.doc = "" ∧ c.fields = [] ∧ c.methods = [] := by grind
    simp only [bare]
    split
    · exact (((Course.lays_line _).raise 1).andThen rfl (Course.lays_closeBlock "")).drafts rfl
    · exact (Course.lays_closeBlock "").drafts rfl
  have methods :=
    (drafts_methodsCourse (c.fields.isEmpty && c.doc == "") c.methods).enclose.andThen filler
  have whole := Course.Drafts.rows head (by simp) (by simp [fault_docCourse])
    (c.fields.map ClassField.row) methods fun base => c.before_ne_nil _ _ (by simp [linesAt])
  have fields : Course.queued (c.fields.map ClassField.row) =
      .all (c.fields.map fun field => ⟨[.queueRow (.each field.row)], none⟩) := by
    simp [Course.queued, Function.comp_def]
  rw [Course.andThen_assoc, Course.andThen_assoc, fields] at whole
  refine whole.congr fun depth => ?_
  simp [draft, linesAt, Bool.and_comm]

end ClassDef

namespace Node

theorem drafts_course : ∀ node : Node, node.course.Drafts 0 0 node.draft
  | .statement s => s.drafts_course
  | .function f => f.drafts_course
  | .classDef c => c.drafts_course

end Node

end Code

end IndentedText
