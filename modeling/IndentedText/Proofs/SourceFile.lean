import Mathlib.Data.List.Induction
import IndentedText.Proofs.Layout
import IndentedText.Proofs.Rendering

/-!
The code of a source file. It is assembled out of order, the imports last, and comes out as one list of
lines in which the imports stand first.
-/

namespace IndentedText.Code

open Section SectionM Document

section Order

variable [BEq α] [LawfulBEq α] {kept items : List α}

theorem pairwise_idxOf_append (member : ∀ item ∈ kept, item ∈ items)
    (order : kept.Pairwise fun item other => items.idxOf item < items.idxOf other) (more : List α) :
    kept.Pairwise fun item other => (items ++ more).idxOf item < (items ++ more).idxOf other := by
  have before (item : α) (held : item ∈ kept) : (items ++ more).idxOf item = items.idxOf item :=
    List.idxOf_append_of_mem (member item held)
  exact order.imp_of_mem fun left right earlier => by rwa [before _ left, before _ right]

theorem pairwise_idxOf_append_new (member : ∀ item ∈ kept, item ∈ items)
    (order : kept.Pairwise fun item other => items.idxOf item < items.idxOf other) {last : α}
    (new : last ∉ items) :
    (kept ++ [last]).Pairwise fun item other =>
      (items ++ [last]).idxOf item < (items ++ [last]).idxOf other := by
  refine List.pairwise_append.2
    ⟨pairwise_idxOf_append member order [last], List.pairwise_singleton .., ?_⟩
  intro item held other here
  obtain rfl : other = last := List.mem_singleton.1 here
  rw [List.idxOf_append_of_mem (member item held), List.idxOf_append_of_notMem new]
  exact Nat.lt_of_lt_of_le (List.idxOf_lt_length_of_mem (member item held)) (Nat.le_add_right ..)

end Order

/-- All items, each once, in the order of their first occurrence. -/
structure FirstOccurrences (kept items : List String) : Prop where
  mem : ∀ item, item ∈ kept ↔ item ∈ items
  order : kept.Pairwise fun item other => items.idxOf item < items.idxOf other

theorem firstOccurrences_eraseDups (items : List String) : FirstOccurrences items.eraseDups items := by
  refine ⟨fun item => List.mem_eraseDups, ?_⟩
  induction items using List.reverseRecOn with
  | nil => exact .nil
  | append_singleton items last ih =>
    have member (item : String) (kept : item ∈ items.eraseDups) : item ∈ items :=
      List.mem_eraseDups.1 kept
    rw [List.eraseDups_append]
    by_cases seen : last ∈ items
    · simpa [List.removeAll, seen] using pairwise_idxOf_append member ih [last]
    · have new : [last].removeAll items = [last] := by simp [List.removeAll, seen]
      rw [new]
      exact pairwise_idxOf_append_new member ih seen

namespace Import

/-- The request names neither a module to bring in nor one to take names from. -/
def Targetless (i : Import) : Prop :=
  (i.target = none ∨ i.target = some "") ∧ (i.origin = none ∨ i.origin = some "")

instance (i : Import) : Decidable i.Targetless :=
  inferInstanceAs (Decidable (_ ∧ _))

theorem line_of_targetless {i : Import} (targetless : i.Targetless) :
    i.line = .error .importWithoutTarget := by
  have target := Text.given_eq_none.2 targetless.1
  have origin := Text.given_eq_none.2 targetless.2
  simp [line, target, origin]

theorem exists_line {i : Import} (target : ¬ i.Targetless) : ∃ text, i.line = .ok text := by
  unfold Targetless at target
  rw [← Text.given_eq_none, ← Text.given_eq_none] at target
  unfold line
  cases origin : Text.given i.origin with
  | some origin =>
    dsimp only
    split <;> exact ⟨_, rfl⟩
  | none =>
    cases whole : Text.given i.target with
    | some whole => cases Text.given i.asName <;> exact ⟨_, rfl⟩
    | none => exact absurd ⟨whole, origin⟩ target

theorem mapM_line_of_targetless {imports : List Import} (h : ∃ i ∈ imports, i.Targetless) :
    imports.mapM line = .error .importWithoutTarget := by
  induction imports with
  | nil => simp at h
  | cons i rest ih =>
    rw [List.mapM_cons]
    by_cases targetless : i.Targetless
    · rw [line_of_targetless targetless]
      rfl
    · obtain ⟨text, first⟩ := exists_line targetless
      rw [first, ih (by simpa [targetless] using h)]
      rfl

theorem mapM_line {imports : List Import} (h : ∀ i ∈ imports, ¬ i.Targetless) :
    ∃ texts, imports.mapM line = .ok texts ∧ imports.map line = texts.map .ok := by
  induction imports with
  | nil => exact ⟨[], rfl, rfl⟩
  | cons i rest ih =>
    obtain ⟨text, first⟩ := exists_line (h i (by simp))
    obtain ⟨texts, lines, same⟩ := ih fun other member => h other (by simp [member])
    refine ⟨text :: texts, ?_, by simp [first, same]⟩
    rw [List.mapM_cons, first, lines]
    rfl

end Import

namespace SourceFile

def spacedCourse (f : FunctionDef) : Course :=
  f.course.andThen (.line "")

def bodyCourse (file : SourceFile) : Course :=
  (Course.all (file.classes.map ClassDef.course)).andThen <|
    (Course.all (file.functions.map spacedCourse)).andThen <|
      Statement.allCourse file.trailer

theorem takes_emitClass (imports : List Import) (c : ClassDef) (s : Section) :
    Takes (emitClass imports c) s c.course := by
  have taken := (c.takes_emit s).bind fun _ _ => takes_pure
    (c.methods.foldl (fun imports method => imports ++ method.requires) (imports ++ c.requires)) _
  rwa [Course.andThen_stay] at taken

theorem takes_emitFunction (imports : List Import) (f : FunctionDef) (s : Section) :
    Takes (emitFunction imports f) s (spacedCourse f) := by
  have taken := (f.takes_emit s).bind fun _ _ => (takes_writeLine "" _).bind fun _ _ =>
    takes_pure (imports ++ f.requires) _
  rwa [Course.andThen_stay] at taken

theorem takes_emitBody (file : SourceFile) (s : Section) : Takes file.emitBody s file.bodyCourse := by
  unfold emitBody bodyCourse
  have classes := takes_foldlM emitClass ClassDef.course file.classes takes_emitClass file.imports s
  refine classes.bind fun _ imports => ?_
  have functions (t : Section) :=
    takes_foldlM emitFunction spacedCourse file.functions takes_emitFunction imports t
  refine (functions _).bind fun _ imports => ?_
  have trailer (t : Section) := (Statement.takes_emitAll file.trailer t).bind fun _ _ =>
    takes_pure imports _
  simpa only [Course.andThen_stay] using trailer _

theorem value_of_emitClass {known imports : List Import} {c : ClassDef} {s t : Section}
    (run : emitClass known c s = .ok imports t) :
    imports = known ++ (c.requires ++ c.methods.flatMap FunctionDef.requires) := by
  obtain ⟨-, u, -, run⟩ := bind_eq_ok run
  cases run
  rw [List.foldl_append_eq_append, List.append_assoc]
  rfl

theorem value_of_emitFunction {known imports : List Import} {f : FunctionDef} {s t : Section}
    (run : emitFunction known f s = .ok imports t) : imports = known ++ f.requires := by
  obtain ⟨-, u, -, run⟩ := bind_eq_ok run
  obtain ⟨-, v, -, run⟩ := bind_eq_ok run
  cases run
  rfl

/-- On the way through the body all imports of the file are collected. -/
theorem value_of_emitBody {file : SourceFile} {imports : List Import} {s t : Section}
    (run : file.emitBody s = .ok imports t) : imports = file.allImports := by
  obtain ⟨known, u, classes, run⟩ := bind_eq_ok run
  obtain ⟨collected, v, functions, run⟩ := bind_eq_ok run
  obtain ⟨-, w, -, run⟩ := bind_eq_ok run
  cases run
  have fromClasses := value_of_foldlM emitClass _ (fun _ _ _ _ _ => value_of_emitClass) classes
  have fromFunctions := value_of_foldlM emitFunction _ (fun _ _ _ _ _ => value_of_emitFunction) functions
  rw [fromFunctions, fromClasses, allImports]

theorem fault_spacedCourse (f : FunctionDef) : (spacedCourse f).fault = refusal f.isConcrete := by
  simp [spacedCourse, f.fault_course]

theorem fault_bodyCourse (file : SourceFile) : file.bodyCourse.fault = refusal file.isConcrete := by
  have classes := fault_all_refusal ClassDef.fault_course file.classes
  have functions := fault_all_refusal fault_spacedCourse file.functions
  simp only [bodyCourse, isConcrete, Course.fault_andThen, classes, functions,
    Statement.fault_allCourse, refusal_and, Option.or_assoc]

def bodyLayout (file : SourceFile) (depth : Nat) : List Line :=
  file.classes.flatMap (ClassDef.layout · depth) ++
    (file.functions.flatMap (fun f => f.layout depth ++ linesAt depth [""]) ++
      Statement.layoutAll file.trailer depth)

theorem lays_bodyCourse {file : SourceFile} (concrete : file.isConcrete = true) :
    file.bodyCourse.Lays 0 0 file.bodyLayout := by
  simp only [isConcrete, Bool.and_eq_true] at concrete
  obtain ⟨⟨classes, functions⟩, trailer⟩ := concrete
  have classCourses := Course.Lays.all fun c member =>
    have concrete := List.all_eq_true.1 classes c member
    ⟨(ClassDef.fault_course c).trans (refusal_eq_none.2 concrete), ClassDef.lays_course concrete⟩
  have functionCourses := Course.Lays.all fun f member =>
    have concrete := List.all_eq_true.1 functions f member
    have done := (FunctionDef.fault_course f).trans (refusal_eq_none.2 concrete)
    ⟨(fault_spacedCourse f).trans (refusal_eq_none.2 concrete),
      (FunctionDef.lays_course concrete).andThen done (Course.lays_line "")⟩
  exact classCourses.andThen
    ((fault_all_refusal ClassDef.fault_course file.classes).trans (refusal_eq_none.2 classes))
    (functionCourses.andThen
      ((fault_all_refusal fault_spacedCourse file.functions).trans (refusal_eq_none.2 functions))
      (Statement.lays_allCourse trailer))

theorem layout_eq (file : SourceFile) (lines : List String) :
    file.layout lines = docLayout file.doc 0 ++ importLayout lines ++ file.bodyLayout 0 := by
  simp [layout, bodyLayout]

theorem emitUnseen_cons {i : Import} {line : String} (here : i.line = .ok line) (seen : List String)
    (rest : List Import) : emitUnseen seen (i :: rest) =
      if line ∈ seen then emitUnseen seen rest
      else (do writeLine line; emitUnseen (line :: seen) rest) := by
  rw [emitUnseen, here]
  rfl

theorem emitUnseen_eq {imports : List Import} {lines : List String}
    (each : imports.map Import.line = lines.map .ok) (seen : List String) {s : Section}
    (top : s.depth = 0) : emitUnseen seen imports s =
      .ok () (s.laid (linesAt 0 (lines.filter (· ∉ seen)).eraseDups)) := by
  induction imports generalizing lines seen s with
  | nil =>
    obtain rfl : lines = [] := by simpa using each.symm
    rfl
  | cons i rest ih =>
    obtain ⟨line, others, rfl, here, later⟩ := List.map_eq_cons_iff.1 each.symm
    rw [emitUnseen_cons here.symm]
    by_cases old : line ∈ seen
    · rw [if_pos old, ih later.symm seen top]
      simp [old]
    · have first := (takes_writeLine line s).run_lays rfl (Course.lays_line line)
      have unseen : (others.filter (· ∉ seen)).filter (fun other => !other == line) =
          others.filter (· ∉ line :: seen) := by
        rw [List.filter_filter]
        refine List.filter_congr fun other _ => ?_
        by_cases same : other = line <;> simp [same]
      rw [if_neg old, bind_of_ok first, ih later.symm (line :: seen) ((laid_depth ..).trans top),
        laid_append, top, ← unseen]
      simp [old, List.eraseDups_cons, linesAt]

theorem emitUnseen_of_targetless {imports : List Import} (found : ∃ i ∈ imports, i.Targetless)
    (seen : List String) (s : Section) :
    ∃ t, emitUnseen seen imports s = .error .importWithoutTarget t := by
  induction imports generalizing seen s with
  | nil => simp at found
  | cons i rest ih =>
    by_cases targetless : i.Targetless
    · refine ⟨s, ?_⟩
      rw [emitUnseen, Import.line_of_targetless targetless]
      rfl
    · obtain ⟨line, here⟩ := Import.exists_line targetless
      have later : ∃ i ∈ rest, i.Targetless := by simpa [targetless] using found
      rw [emitUnseen_cons here]
      split
      · exact ih later seen s
      · exact ih later (line :: seen) (s.writeLine line)

theorem emitImports_eq {imports : List Import} {lines : List String}
    (each : imports.map Import.line = lines.map .ok) {s : Section} (top : s.depth = 0)
    (new : s.written = 0) : emitImports imports s = .ok () (s.laid (importLayout lines)) := by
  have unseen := emitUnseen_eq each [] top
  simp only [List.not_mem_nil, not_false_eq_true, decide_true, List.filter_true] at unseen
  unfold emitImports
  rw [bind_of_ok unseen]
  -- The blank line is written only if the section has something above it.
  change (if (s.laid (linesAt 0 lines.eraseDups)).isEmpty then pure ()
    else writeLine "" : SectionM Unit) (s.laid (linesAt 0 lines.eraseDups)) = _
  cases lines with
  | nil => simp [isEmpty, linesAt, new, importLayout, pure, EStateM.pure]
  | cons line rest =>
    have filled : (s.laid (linesAt 0 (line :: rest).eraseDups)).isEmpty = false := by
      simp [isEmpty, linesAt, List.eraseDups_cons]
    have blank := (takes_writeLine "" (s.laid (linesAt 0 (line :: rest).eraseDups))).run_lays rfl
      (Course.lays_line "")
    rw [laid_depth, top, laid_append] at blank
    rw [filled]
    simpa [importLayout, linesAt] using blank

theorem emitImports_of_targetless {imports : List Import} (found : ∃ i ∈ imports, i.Targetless)
    (s : Section) : ∃ t, emitImports imports s = .error .importWithoutTarget t := by
  obtain ⟨t, refused⟩ := emitUnseen_of_targetless found [] s
  exact ⟨t, bind_of_error refused⟩

def opening (file : SourceFile) (unit : String) : Section :=
  ({ unit } : Section).laid (docLayout file.doc 0)

def document (file : SourceFile) (unit : String) (imports body : Section) : Document :=
  ⟨[((file.opening unit).place 1).place 2, imports, body]⟩

theorem nest_root {s : Section} (pending : s.pending = false) (rows : s.rows = []) (top : s.depth = 0)
    (others : List Section) :
    nest 0 ⟨s :: others⟩ = .ok (others.length + 1)
      ⟨s.place (others.length + 1) :: (others ++ [({ unit := s.unit } : Section)])⟩ := by
  have reserved : s.reserve (others.length + 1) = s.place (others.length + 1) := by
    rw [reserve_eq, commit_of_not_pending pending rows]
  simp [nest, size, Document.get, put, child, top, reserved]

section Opening

variable (file : SourceFile) (unit : String)

theorem opening_depth : (file.opening unit).depth = 0 :=
  laid_depth ..

theorem opening_unit : (file.opening unit).unit = unit :=
  laid_unit ..

theorem opening_visible : (file.opening unit).visible = true :=
  laid_visible ..

theorem opening_eq : (file.opening unit).pending = false ∧ (file.opening unit).rows = [] ∧
    (file.opening unit).raw = [] ∧
    (file.opening unit).fragments = (docLayout file.doc 0).map .line := by
  unfold opening
  cases docLayout file.doc 0 <;> simp [laid, rowLines]

end Opening

/-- What is written once the two places are reserved: the body, and then the imports. -/
def fill (file : SourceFile) : DocumentM Unit := do
  let imports ← inSection 2 file.emitBody
  inSection 1 (emitImports imports)

def textOf (write : DocumentM Unit) (unit : Option String) : Except Fault String :=
  match (do write; Document.text 0 : DocumentM String) (new unit) with
  | .ok text _ => .ok text
  | .error fault _ => .error fault

theorem write_opening (file : SourceFile) (unit : Option String) :
    let held := unit.getD "   "
    inSection 0 (emitDoc file.doc) (new unit) = .ok () ⟨[file.opening held]⟩ ∧
      nest 0 ⟨[file.opening held]⟩ = .ok 1 ⟨[(file.opening held).place 1, { unit := held }]⟩ := by
  intro held
  obtain ⟨pending, rows, -, -⟩ := file.opening_eq held
  refine ⟨inSection_of_ok (b := 0) (d := new unit) (run_emitDoc file.doc { unit := held }), ?_⟩
  rw [nest_root pending rows (file.opening_depth held), opening_unit]
  rfl

theorem write_places (file : SourceFile) (unit : String) (imports : Section) :
    nest 0 ⟨[(file.opening unit).place 1, imports]⟩ = .ok 2 (file.document unit imports { unit }) := by
  obtain ⟨pending, rows, -, -⟩ := file.opening_eq unit
  rw [nest_root (s := (file.opening unit).place 1) pending rows (file.opening_depth unit)]
  simp [document, place, opening_unit]

theorem write_eq (file : SourceFile) (unit : Option String) :
    let held := unit.getD "   "
    file.write (new unit) =
      file.fill (file.document held { unit := held, visibleIfEmpty := false } { unit := held }) := by
  intro held
  obtain ⟨first, imports⟩ := file.write_opening unit
  have hidden : inSection 1 (modify fun s => { s with visibleIfEmpty := false })
        ⟨[(file.opening held).place 1, { unit := held }]⟩ =
      .ok () ⟨[(file.opening held).place 1, { unit := held, visibleIfEmpty := false }]⟩ := rfl
  unfold write
  rw [bind_of_ok first, bind_of_ok imports, bind_of_ok hidden, bind_of_ok (file.write_places held _)]
  rfl

section Document

variable (file : SourceFile) (unit : String) (imports body : List Line) (ifEmpty : Bool)

def filled : Document :=
  file.document unit (({ unit, visibleIfEmpty := ifEmpty } : Section).laid imports)
    (({ unit } : Section).laid body)

theorem orderly_filled : (file.filled unit imports body ifEmpty).Orderly := by
  obtain ⟨pending, rows, raw, opening⟩ := file.opening_eq unit
  refine ⟨fun b => ?_, fun b child held => ?_, fun b inside => ?_⟩
  · rcases b with _ | _ | _ | b
    · exact ⟨fun _ => raw, fun _ => rows⟩
    · exact Settled.laid (s := { unit, visibleIfEmpty := ifEmpty }) ⟨fun _ => rfl, fun _ => rfl⟩ _
    · exact (settled_new unit 0).laid body
    · exact settled_new _ _
  · rcases b with _ | _ | _ | b
    · have places : child = 1 ∨ child = 2 := by
        simpa [filled, document, Document.get, place, opening] using held
      have size : (file.filled unit imports body ifEmpty).size = 3 := rfl
      omega
    · simp [filled, document, Document.get, nested_mem_laid] at held
    · simp [filled, document, Document.get, nested_mem_laid] at held
    · simp [filled, document, Document.get] at held
  · have root : (file.filled unit imports body ifEmpty).unit = unit := opening_unit file unit
    rw [root]
    rcases b with _ | _ | _ | b
    · exact root
    · exact laid_unit ..
    · exact laid_unit ..
    · cases Nat.not_lt.2 (Nat.le_add_left 3 b) inside

theorem unit_filled : (file.filled unit imports body ifEmpty).unit = unit :=
  opening_unit file unit

theorem lines_filled : (file.filled unit imports body ifEmpty).lines 0 =
    docLayout file.doc 0 ++ imports ++ body := by
  generalize held : file.filled unit imports body ifEmpty = d
  have size : d.size = 3 := by rw [← held]; rfl
  obtain ⟨pending, rows, -, opening⟩ := file.opening_eq unit
  have top : (d.get 0).content = (docLayout file.doc 0).map .line ++ [.nested 1, .nested 2] := by
    have settled : (((file.opening unit).place 1).place 2).content =
        (((file.opening unit).place 1).place 2).fragments := content_of_not_pending pending rows
    rw [← held]
    refine settled.trans ?_
    simp [place, opening]
  have second : d.lines 1 = imports := lines_of_content (by rw [← held]; exact laid_visible ..)
    (by rw [← held]; exact content_laid rfl rfl rfl imports)
  have third : d.lines 2 = body := lines_of_content (by rw [← held]; exact laid_visible ..)
    (by rw [← held]; exact content_laid rfl rfl rfl body)
  have root : (d.get 0).visible = true := by rw [← held]; exact file.opening_visible unit
  rw [Document.lines, if_pos root, top]
  simp [List.flatMap_map, size, second, third]

end Document

section Fill

variable {file : SourceFile} (unit : String) (ifEmpty : Bool)

theorem fill_of_not_concrete (h : file.isConcrete = false) :
    ∃ d, file.fill (file.document unit { unit, visibleIfEmpty := ifEmpty } { unit }) =
      .error .abstractStatement d := by
  have refused : file.bodyCourse.fault = some .abstractStatement := by
    rw [fault_bodyCourse, h]
    rfl
  have body := inSection_of_error (b := 2)
    (d := file.document unit { unit, visibleIfEmpty := ifEmpty } { unit })
    ((file.takes_emitBody { unit }).error _ refused)
  exact ⟨_, bind_of_error body⟩

theorem fill_of_concrete (concrete : file.isConcrete = true) :
    file.fill (file.document unit { unit, visibleIfEmpty := ifEmpty } { unit }) =
      inSection 1 (emitImports file.allImports)
        (file.document unit { unit, visibleIfEmpty := ifEmpty }
          (({ unit } : Section).laid (file.bodyLayout 0))) := by
  have done := file.fault_bodyCourse.trans (refusal_eq_none.2 concrete)
  obtain ⟨imports, run⟩ := (file.takes_emitBody { unit }).ok done
  rw [lays_bodyCourse concrete 0 { unit } rfl, value_of_emitBody run] at run
  have body := inSection_of_ok (b := 2)
    (d := file.document unit { unit, visibleIfEmpty := ifEmpty } { unit }) run
  rw [laid_keep] at body
  exact bind_of_ok body

theorem fill_of_ok (concrete : file.isConcrete = true) {lines : List String}
    (each : file.allImports.map Import.line = lines.map .ok) :
    file.fill (file.document unit { unit, visibleIfEmpty := ifEmpty } { unit }) =
      .ok () (file.filled unit (importLayout lines) (file.bodyLayout 0) ifEmpty) :=
  (fill_of_concrete unit ifEmpty concrete).trans
    (inSection_of_ok (b := 1) (emitImports_eq each rfl rfl))

theorem text_of_fill {write : DocumentM Unit} {given : Option String}
    (fills : write (new given) =
      file.fill (file.document unit { unit, visibleIfEmpty := ifEmpty } { unit })) :
    textOf write given =
      if file.isConcrete then (file.allImports.mapM Import.line).map fun lines =>
        Line.renderAll unit 0 (file.layout lines)
      else .error .abstractStatement := by
  unfold textOf
  cases concrete : file.isConcrete with
  | false =>
    obtain ⟨d, refused⟩ := fill_of_not_concrete unit ifEmpty concrete
    simp only [bind_of_error (fills.trans refused)]
    rfl
  | true =>
    by_cases found : ∃ i ∈ file.allImports, i.Targetless
    · have filled := fills.trans (fill_of_concrete unit ifEmpty concrete)
      obtain ⟨t, refused⟩ := emitImports_of_targetless found { unit, visibleIfEmpty := ifEmpty }
      have stopped := filled.trans (inSection_of_error (b := 1) refused)
      simp only [bind_of_error stopped, Import.mapM_line_of_targetless found]
      rfl
    · obtain ⟨lines, asked, each⟩ := Import.mapM_line fun i member targetless =>
        found ⟨i, member, targetless⟩
      have done := fills.trans (fill_of_ok unit ifEmpty concrete each)
      have orderly := file.orderly_filled unit (importLayout lines) (file.bodyLayout 0) ifEmpty
      simp only [bind_of_ok done, Document.text, orderly.render_eq, unit_filled, lines_filled, asked,
        layout_eq]
      rfl

end Fill

theorem write_of_ok {file : SourceFile} (concrete : file.isConcrete = true) {lines : List String}
    (each : file.allImports.map Import.line = lines.map .ok) (unit : Option String) :
    ∃ d, file.write (new unit) = .ok () d ∧ d.unit = unit.getD "   " ∧ d.lines 0 = file.layout lines := by
  refine ⟨_, (file.write_eq unit).trans (fill_of_ok _ false concrete each), unit_filled .., ?_⟩
  rw [lines_filled, layout_eq]

/-- The code of a file is its layout, with the lines of all its imports, unless it is refused. -/
theorem code_eq (file : SourceFile) (unit : Option String) :
    file.code unit =
      if file.isConcrete then (file.allImports.mapM Import.line).map fun lines =>
        Line.renderAll (unit.getD "   ") 0 (file.layout lines)
      else .error .abstractStatement :=
  text_of_fill _ false (file.write_eq unit)

/-- One list of lines is the code of a file for every indent unit. The imports stand in it above all
that asks for them, every line of them once, with a blank line below. -/
theorem code_layout {file : SourceFile} (concrete : file.isConcrete = true)
    (valid : ∀ i ∈ file.allImports, ¬ i.Targetless) :
    ∃ (asked kept : List String) (lines : List Line),
      file.allImports.map Import.line = asked.map .ok ∧
      FirstOccurrences kept asked ∧
      lines = docLayout file.doc 0 ++
        (if file.allImports.isEmpty then [] else linesAt 0 (kept ++ [""])) ++
        file.classes.flatMap (ClassDef.layout · 0) ++
        file.functions.flatMap (fun f => f.layout 0 ++ linesAt 0 [""]) ++
        Statement.layoutAll file.trailer 0 ∧
      ∀ unit : Option String, file.code unit = .ok (String.join (lines.map fun line =>
        String.join (List.replicate line.depth (unit.getD "   ")) ++ line.text ++ "\n")) := by
  obtain ⟨asked, ok, each⟩ := Import.mapM_line valid
  have none : file.allImports.isEmpty = asked.isEmpty := by
    simpa using congrArg List.isEmpty each
  refine ⟨asked, asked.eraseDups, file.layout asked, each, firstOccurrences_eraseDups asked, ?_,
    fun unit => ?_⟩
  · rw [none]
    rfl
  · rw [code_eq, if_pos concrete, ok]
    simp [Except.map, renderAll_eq_join]

/-- A class and its method ask for an import that the file has too, the function for one that only
reads the same. -/
theorem code_layout_shared :
    let shared : Import := { target := some "os" }
    let file : SourceFile :=
      { doc := "d", imports := [shared]
        classes := [{ name := "C", requires := [{ origin := some "m", names := ["n"] }]
                      methods := [{ name := "f", requires := [shared] }] }]
        functions := [{ name := "g", requires := [{ target := some "os", asName := some "" }] }]
        trailer := [.pass] }
    file.isConcrete = true ∧ (∀ i ∈ file.allImports, ¬ i.Targetless) ∧
      ∃ (asked kept : List String) (lines : List Line),
        file.allImports.map Import.line = asked.map .ok ∧ FirstOccurrences kept asked ∧
        linesAt 0 (kept ++ [""]) <:+: lines ∧
        ∀ unit : Option String, file.code unit = .ok (String.join (lines.map fun line =>
          String.join (List.replicate line.depth (unit.getD "   ")) ++ line.text ++ "\n")) := by
  intro shared file
  have concrete : file.isConcrete = true := by decide
  have valid : ∀ i ∈ file.allImports, ¬ i.Targetless := by decide
  obtain ⟨asked, kept, lines, each, first, parts, text⟩ := code_layout concrete valid
  refine ⟨concrete, valid, asked, kept, lines, each, first, ?_, text⟩
  have asks : file.allImports.isEmpty = false := rfl
  rw [parts, asks]
  simp only [Bool.false_eq_true, if_false, List.append_assoc]
  exact List.infix_append' ..

end SourceFile

end IndentedText.Code
