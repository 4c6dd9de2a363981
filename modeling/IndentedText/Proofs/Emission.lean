import IndentedText.Code.Definition
import IndentedText.Proofs.Course

/-!
The courses of emissions. A piece of code is emitted by the same changes whatever section it goes to,
because it never steps further out than it has stepped in.
-/

namespace IndentedText

open Section SectionM

namespace Course

/-- A course of plain changes. Begun `start` levels above some base it stays above the base, and
without a fault it ends `stop` levels above it. -/
structure Climbs (course : Course) (start stop : Nat) : Prop where
  plain : ∀ change ∈ course.changes, change.isPlain = true
  above : ∀ (base : Nat) (s : Section), s.depth = base + start → base ≤ (s.after course.changes).depth
  level : course.fault = none → ∀ (base : Nat) (s : Section), s.depth = base + start →
    (s.after course.changes).depth = base + stop

theorem Climbs.andThen {first next : Course} {start middle stop : Nat}
    (h : first.Climbs start middle) (k : next.Climbs middle stop) :
    (first.andThen next).Climbs start stop := by
  unfold Course.andThen
  cases hf : first.fault with
  | none =>
    refine ⟨fun change inside => ?_, fun base s hs => ?_, fun hk base s hs => ?_⟩
    · exact (List.mem_append.1 inside).elim (h.plain change) (k.plain change)
    · simpa using k.above base _ (h.level hf base s hs)
    · simpa using k.level hk base _ (h.level hf base s hs)
  | some fault => exact ⟨h.plain, h.above, nofun⟩

theorem Climbs.raise {course : Course} (h : course.Climbs 0 0) (n : Nat) : course.Climbs n n := by
  refine ⟨h.plain, fun base s hs => ?_, fun hf base s hs => h.level hf (base + n) s hs⟩
  have := h.above (base + n) s hs
  omega

theorem Climbs.within {course : Course} (h : course.Climbs 0 0) : course.within.Climbs 0 0 := by
  have out (s : Section) : (s.after course.within.changes).depth =
      (s.indent.after course.changes).depth - 1 := by
    simp [Course.within, Change.apply]
  refine ⟨fun change inside => ?_, fun base s hs => ?_, fun hf base s hs => ?_⟩
  · simp only [Course.within, List.cons_append, List.mem_cons, List.mem_append,
      List.not_mem_nil, or_false] at inside
    rcases inside with rfl | inside | rfl
    · rfl
    · exact h.plain change inside
    · rfl
  · have := h.above (base + 1) s.indent (by simp [Section.indent, hs])
    rw [out]
    omega
  · have := h.level hf (base + 1) s.indent (by simp [Section.indent, hs])
    rw [out]
    omega

theorem Climbs.le_depth {course : Course} (h : course.Climbs 0 0) (s : Section) :
    s.depth ≤ (s.after course.changes).depth :=
  h.above s.depth s rfl

theorem Climbs.depth_eq {course : Course} (h : course.Climbs 0 0) (hf : course.fault = none)
    (s : Section) : (s.after course.changes).depth = s.depth :=
  h.level hf s.depth s rfl

theorem climbs_single (change : Change) {start stop : Nat} (plain : change.isPlain = true)
    (moves : ∀ (base : Nat) (s : Section), s.depth = base + start →
      (change.apply s).depth = base + stop) :
    (⟨[change], none⟩ : Course).Climbs start stop := by
  refine ⟨fun other inside => ?_, fun base s hs => ?_, fun _ base s hs => moves base s hs⟩
  · rwa [List.mem_singleton.1 inside]
  · have := moves base s hs
    simp only [after_cons, after_nil]
    omega

theorem climbs_stay : stay.Climbs 0 0 :=
  ⟨nofun, fun _ _ hs => Nat.le_of_eq hs.symm, fun _ _ _ hs => hs⟩

theorem climbs_line (text : String) : (line text).Climbs 0 0 :=
  (climbs_single (.write text) rfl fun _ _ hs => hs).andThen
    (climbs_single .commit rfl fun _ s hs => (commit_depth s).trans hs)

theorem climbs_all {courses : List Course} (h : ∀ course ∈ courses, course.Climbs 0 0) :
    (all courses).Climbs 0 0 := by
  induction courses with
  | nil => exact climbs_stay
  | cons course rest ih =>
    exact (h course (by simp)).andThen (ih fun other inside => h other (by simp [inside]))

theorem climbs_lines (text : α → String) (items : List α) :
    (all (items.map fun item => line (text item))).Climbs 0 0 :=
  climbs_all fun course inside => by
    obtain ⟨item, -, rfl⟩ := List.mem_map.1 inside
    exact climbs_line (text item)

theorem climbs_indent (n : Nat) : (⟨[.indent], none⟩ : Course).Climbs n (n + 1) :=
  climbs_single .indent rfl fun _ _ hs => congrArg (· + 1) hs

theorem climbs_openBlock (text : String) : (openBlock text).Climbs 0 1 :=
  (climbs_line text).andThen (climbs_indent 0)

theorem climbs_outdent (n : Nat) : (outdent 1).Climbs (n + 1) n :=
  climbs_single .outdent rfl fun _ _ hs => congrArg (· - 1) hs

theorem climbs_closeBlock (text : String) (n : Nat) : (closeBlock text 1).Climbs (n + 1) n :=
  (climbs_single .commitRows rfl fun _ _ hs => hs).andThen
    ((climbs_outdent n).andThen ((climbs_line text).raise n))

theorem climbs_turnBlock (text : String) (n : Nat) : (turnBlock text 1).Climbs (n + 1) (n + 1) :=
  (climbs_closeBlock text n).andThen (climbs_indent n)

end Course

namespace Code

namespace Statement

mutual

/-- The changes that emit a statement. Inside a block the depth is above zero, and one level stands
for all of them. -/
def course : Statement → Course
  | pass => .line "pass"
  | abstract => ⟨[], some .abstractStatement⟩
  | assign target value => .line (assignLine target value)
  | ret value => .line (returnLine value)
  | call function arguments keywords => .line (callLine function arguments keywords)
  | branch condition body orElse =>
    (Course.openBlock (branchLine condition)).andThen <| (bodyCourse body).andThen <|
      Course.andThen
        (if orElse.isEmpty then .stay else (Course.turnBlock "else:" 1).andThen (bodyCourse orElse))
        (.outdent 1)
  | loop target iterable body =>
    (Course.line (loopLine target iterable)).andThen (bodyCourse body).within

def bodyCourse : List Statement → Course
  | [] => .line "pass"
  | statement :: rest => statement.course.andThen (allCourse rest)

def allCourse : List Statement → Course
  | [] => .stay
  | statement :: rest => statement.course.andThen (allCourse rest)

end

mutual

theorem climbs_course : ∀ statement : Statement, statement.course.Climbs 0 0
  | pass | assign .. | ret .. | call .. => by
    rw [course]
    exact Course.climbs_line _
  | abstract => by
    rw [course]
    exact ⟨nofun, Course.climbs_stay.above, nofun⟩
  | branch condition body orElse => by
    rw [course]
    refine (Course.climbs_openBlock _).andThen (((climbs_bodyCourse body).raise 1).andThen
      (.andThen ?_ (Course.climbs_outdent 0)))
    split
    · exact Course.climbs_stay.raise 1
    · exact (Course.climbs_turnBlock _ 0).andThen ((climbs_bodyCourse orElse).raise 1)
  | loop target iterable body => by
    rw [course]
    exact (Course.climbs_line _).andThen (climbs_bodyCourse body).within

theorem climbs_bodyCourse : ∀ body : List Statement, (bodyCourse body).Climbs 0 0
  | [] => Course.climbs_line _
  | statement :: rest => by
    rw [bodyCourse]
    exact (climbs_course statement).andThen (climbs_allCourse rest)

theorem climbs_allCourse : ∀ body : List Statement, (allCourse body).Climbs 0 0
  | [] => Course.climbs_stay
  | statement :: rest => by
    rw [allCourse]
    exact (climbs_course statement).andThen (climbs_allCourse rest)

end

mutual

theorem takes_emit : ∀ (statement : Statement) (s : Section), Takes statement.emit s statement.course
  | pass, s | assign .., s | ret .., s | call .., s => by
    rw [course, emit]
    exact takes_writeLine _ s
  | abstract, s => by
    rw [course, emit]
    exact .of_error rfl
  | branch condition body orElse, s => by
    rw [course, emit]
    refine (takes_openBlock _ s).bind fun _ _ => (takes_emitBody body _).bind fun hbody _ => ?_
    generalize hs : (s.after (Course.openBlock (branchLine condition)).changes).after
      (bodyCourse body).changes = t
    -- The body ends at the depth where it began, so there is a level to step out of.
    have inside : 0 < t.depth := by
      rw [← hs, (climbs_bodyCourse body).depth_eq hbody]
      exact Nat.succ_pos _
    split
    · refine (takes_pure () t).bind fun _ _ => takes_outdent_inside inside
    · rw [Course.andThen_assoc]
      refine (takes_turnBlock_inside _ inside).bind fun hturn _ =>
        (takes_emitBody orElse _).bind fun horElse _ => takes_outdent_inside ?_
      have turned := (Course.climbs_turnBlock "else:" 0).level hturn (t.depth - 1) t (by omega)
      rw [(climbs_bodyCourse orElse).depth_eq horElse, turned]
      omega
  | loop target iterable body, s => by
    rw [course, emit]
    refine (takes_writeLine _ s).bind fun _ _ => takes_indented (takes_emitBody body _) ?_
    refine Nat.lt_of_lt_of_le ?_ ((climbs_bodyCourse body).le_depth _)
    exact Nat.succ_pos _

theorem takes_emitBody : ∀ (body : List Statement) (s : Section),
    Takes (emitBody body) s (bodyCourse body)
  | [], s => takes_writeLine _ s
  | statement :: rest, s => by
    rw [bodyCourse, emitBody]
    exact (takes_emit statement s).bind fun _ _ => takes_emitAll rest _

theorem takes_emitAll : ∀ (body : List Statement) (s : Section),
    Takes (emitAll body) s (allCourse body)
  | [], s => takes_pure () s
  | statement :: rest, s => by
    rw [allCourse, emitAll]
    exact (takes_emit statement s).bind fun _ _ => takes_emitAll rest _

end

end Statement

def docCourse (doc : String) : Course :=
  if doc = "" then .stay
  else (Course.line "\"\"\"").andThen <|
    (Course.all ((Text.lines (Text.trim doc)).map .line)).andThen (.line "\"\"\"")

theorem climbs_docCourse (doc : String) : (docCourse doc).Climbs 0 0 := by
  unfold docCourse
  split
  · exact Course.climbs_stay
  · exact (Course.climbs_line _).andThen
      ((Course.climbs_lines _ _).andThen (Course.climbs_line _))

theorem takes_emitDoc (doc : String) (s : Section) : Takes (emitDoc doc) s (docCourse doc) := by
  unfold emitDoc docCourse
  by_cases h : doc = ""
  · rw [if_pos h, if_pos h]
    exact takes_pure () s
  · rw [if_neg h, if_neg h]
    exact (takes_writeLine _ s).bind fun _ _ =>
      (takes_writeLines (Text.trim doc) _).bind fun _ _ => takes_writeLine _ _

namespace FunctionDef

def course (f : FunctionDef) : Course :=
  (Course.all (f.decorators.map fun decorator => .line ("@" ++ decorator))).andThen <|
    (Course.openBlock f.headLine).andThen <| (docCourse f.doc).andThen <|
      Course.andThen (if !f.body.isEmpty || f.doc == "" then Statement.bodyCourse f.body else .stay) (.outdent 1)

theorem climbs_course (f : FunctionDef) : f.course.Climbs 0 0 := by
  refine Course.Climbs.andThen (Course.climbs_lines _ _) <|
    (Course.climbs_openBlock _).andThen <| ((climbs_docCourse f.doc).raise 1).andThen <|
      Course.Climbs.andThen ?_ (Course.climbs_outdent 0)
  split
  · exact (Statement.climbs_bodyCourse f.body).raise 1
  · exact Course.climbs_stay.raise 1

theorem takes_emit (f : FunctionDef) (s : Section) : Takes f.emit s f.course := by
  unfold emit course
  refine (takes_forM _ _ _ (fun decorator s => takes_writeLine ("@" ++ decorator) s) s).bind
    fun _ _ => (takes_openBlock _ _).bind fun _ _ => (takes_emitDoc f.doc _).bind fun hdoc _ => ?_
  generalize hs : Section.after _ (docCourse f.doc).changes = t
  have inside : 0 < t.depth := by
    rw [← hs, (climbs_docCourse f.doc).depth_eq hdoc]
    exact Nat.succ_pos _
  split
  · refine (Statement.takes_emitBody f.body t).bind fun hbody _ => takes_outdent_inside ?_
    rwa [(Statement.climbs_bodyCourse f.body).depth_eq hbody]
  · exact (takes_pure () t).bind fun _ _ => takes_outdent_inside inside

end FunctionDef

namespace ClassDef

def methodsCourse (first : Bool) : List FunctionDef → Course
  | [] => .stay
  | method :: rest =>
    (if first then Course.stay else .line "").andThen <| method.course.andThen <|
      methodsCourse false rest

def course (c : ClassDef) : Course :=
  (Course.all (c.decorators.map fun decorator => .line ("@" ++ decorator))).andThen <|
    (Course.openBlock c.headLine).andThen <| (docCourse c.doc).andThen <|
      (Course.all (c.fields.map fun field => ⟨[.queueRow (.each field.row)], none⟩)).andThen <|
        (methodsCourse (c.fields.isEmpty && c.doc == "") c.methods).andThen <|
          (if c.methods.isEmpty && c.fields.isEmpty && c.doc == "" then Course.line "pass"
            else .stay).andThen (.closeBlock "" 1)

theorem climbs_fields (fields : List ClassField) :
    (Course.all (fields.map fun field => ⟨[.queueRow (.each field.row)], none⟩)).Climbs 0 0 := by
  refine Course.climbs_all fun course inside => ?_
  obtain ⟨field, -, rfl⟩ := List.mem_map.1 inside
  exact Course.climbs_single _ rfl fun _ _ hs => hs

theorem climbs_methodsCourse (first : Bool) (methods : List FunctionDef) :
    (methodsCourse first methods).Climbs 0 0 := by
  induction methods generalizing first with
  | nil => exact Course.climbs_stay
  | cons method rest ih =>
    refine Course.Climbs.andThen ?_ (method.climbs_course.andThen (ih false))
    cases first
    · exact Course.climbs_line ""
    · exact Course.climbs_stay

theorem climbs_course (c : ClassDef) : c.course.Climbs 0 0 := by
  refine (Course.climbs_lines _ _).andThen <| (Course.climbs_openBlock _).andThen <|
    ((climbs_docCourse c.doc).raise 1).andThen <| ((climbs_fields c.fields).raise 1).andThen <|
      ((climbs_methodsCourse _ c.methods).raise 1).andThen <|
        Course.Climbs.andThen ?_ (Course.climbs_closeBlock "" 0)
  split
  · exact (Course.climbs_line _).raise 1
  · exact Course.climbs_stay.raise 1

theorem takes_emitMethods (first : Bool) (methods : List FunctionDef) (s : Section) :
    Takes (emitMethods first methods) s (methodsCourse first methods) := by
  induction methods generalizing first s with
  | nil => exact takes_pure () s
  | cons method rest ih =>
    unfold emitMethods methodsCourse
    cases first
    · exact (takes_writeLine "" s).bind fun _ _ => (method.takes_emit _).bind fun _ _ => ih false _
    · exact (takes_pure () s).bind fun _ _ => (method.takes_emit _).bind fun _ _ => ih false _

theorem takes_emit (c : ClassDef) (s : Section) : Takes c.emit s c.course := by
  unfold emit course
  refine (takes_forM _ _ _ (fun decorator s => takes_writeLine ("@" ++ decorator) s) s).bind
    fun _ _ => (takes_openBlock _ _).bind fun _ _ => (takes_emitDoc c.doc _).bind fun hdoc _ =>
      (takes_forM _ _ _ (fun field s => takes_queueRow (.each field.row) s) _).bind fun hfields _ =>
        (takes_emitMethods _ c.methods _).bind fun hmethods _ => ?_
  generalize hs : Section.after _ (methodsCourse _ c.methods).changes = t
  have inside : 0 < t.depth := by
    rw [← hs, (climbs_methodsCourse _ c.methods).depth_eq hmethods,
      (climbs_fields c.fields).depth_eq hfields, (climbs_docCourse c.doc).depth_eq hdoc]
    exact Nat.succ_pos _
  split
  · exact (takes_writeLine "pass" t).bind fun _ _ => takes_closeBlock_inside "" (by
      rwa [(Course.climbs_line "pass").depth_eq rfl])
  · exact (takes_pure () t).bind fun _ _ => takes_closeBlock_inside "" inside

end ClassDef

namespace Node

def course : Node → Course
  | .statement s => s.course
  | .function f => f.course
  | .classDef c => c.course

theorem climbs_course : ∀ node : Node, node.course.Climbs 0 0
  | .statement s => s.climbs_course
  | .function f => f.climbs_course
  | .classDef c => c.climbs_course

theorem takes_emit : ∀ (node : Node) (s : Section), Takes node.emit s node.course
  | .statement inner, s => inner.takes_emit s
  | .function f, s => f.takes_emit s
  | .classDef c, s => c.takes_emit s

end Node

end Code

end IndentedText
