import IndentedText.Code.Session
import IndentedText.Proofs.SourceFile

/-!
When the code of a source file is refused. One statement without a form of its own is enough, however
deep it stands, and is found before any import is. Being refused or not, the file is still the same.
-/

namespace IndentedText.Code

namespace Statement

/-- The statement `inner` is the other one, or occurs in it at some depth. -/
inductive Within (inner : Statement) : Statement → Prop where
  | here : Within inner inner
  | body {statement : Statement} {body : List Statement} (member : statement ∈ body)
      (deeper : Within inner statement) (condition : String) (orElse : List Statement) :
      Within inner (branch condition body orElse)
  | orElse {statement : Statement} {orElse : List Statement} (member : statement ∈ orElse)
      (deeper : Within inner statement) (condition : String) (body : List Statement) :
      Within inner (branch condition body orElse)
  | loop {statement : Statement} {body : List Statement} (member : statement ∈ body)
      (deeper : Within inner statement) (target iterable : String) :
      Within inner (loop target iterable body)

theorem allConcrete_iff {body : List Statement} :
    allConcrete body = true ↔ ∀ statement ∈ body, statement.isConcrete = true := by
  induction body with
  | nil => simp [allConcrete]
  | cons statement rest ih => simp [allConcrete, ih]

theorem Within.isConcrete {inner statement : Statement} (within : Within inner statement)
    (concrete : statement.isConcrete = true) : inner.isConcrete = true := by
  induction within with
  | here => exact concrete
  | body member _ condition orElse ih =>
    rw [Statement.isConcrete, Bool.and_eq_true] at concrete
    exact ih (allConcrete_iff.1 concrete.1 _ member)
  | orElse member _ condition body ih =>
    rw [Statement.isConcrete, Bool.and_eq_true] at concrete
    exact ih (allConcrete_iff.1 concrete.2 _ member)
  | loop member _ target iterable ih =>
    rw [Statement.isConcrete] at concrete
    exact ih (allConcrete_iff.1 concrete _ member)

mutual

theorem exists_within : ∀ {statement : Statement}, statement.isConcrete = false →
    Within abstract statement
  | abstract, _ => .here
  | branch condition body orElse, h => by
    rw [isConcrete, Bool.and_eq_false_iff] at h
    obtain h | h := h
    · obtain ⟨statement, member, deeper⟩ := exists_mem_within h
      exact .body member deeper condition orElse
    · obtain ⟨statement, member, deeper⟩ := exists_mem_within h
      exact .orElse member deeper condition body
  | loop target iterable body, h => by
    rw [isConcrete] at h
    obtain ⟨statement, member, deeper⟩ := exists_mem_within h
    exact .loop member deeper target iterable

theorem exists_mem_within : ∀ {body : List Statement}, allConcrete body = false →
    ∃ statement ∈ body, Within abstract statement
  | statement :: rest, h => by
    rw [allConcrete, Bool.and_eq_false_iff] at h
    obtain h | h := h
    · exact ⟨statement, by simp, exists_within h⟩
    · obtain ⟨other, member, deeper⟩ := exists_mem_within h
      exact ⟨other, by simp [member], deeper⟩

end

theorem allConcrete_iff_not_within {body : List Statement} :
    allConcrete body = true ↔ ¬ ∃ statement ∈ body, Within abstract statement := by
  constructor
  · rintro concrete ⟨statement, member, deeper⟩
    cases deeper.isConcrete (allConcrete_iff.1 concrete statement member)
  · intro none
    by_contra h
    exact none (exists_mem_within (Bool.eq_false_iff.2 h))

end Statement

namespace SourceFile

/-- The statements of the file outside of all others: those of its methods, of its functions, and the
ones after them. -/
def statements (file : SourceFile) : List Statement :=
  (file.classes.flatMap ClassDef.methods).flatMap FunctionDef.body ++
    file.functions.flatMap FunctionDef.body ++ file.trailer

def HasAbstract (file : SourceFile) : Prop :=
  ∃ statement ∈ file.statements, Statement.Within .abstract statement

def HasTargetless (file : SourceFile) : Prop :=
  ∃ i, file.Asks i ∧ i.Targetless

theorem hasTargetless_iff (file : SourceFile) :
    file.HasTargetless ↔ ∃ i ∈ file.allImports, i.Targetless := by
  simp only [HasTargetless, mem_allImports]

theorem isConcrete_iff_statements (file : SourceFile) :
    file.isConcrete = true ↔ Statement.allConcrete file.statements = true := by
  simp only [isConcrete, statements, Bool.and_eq_true, List.all_eq_true, Statement.allConcrete_iff,
    ClassDef.isConcrete, FunctionDef.isConcrete, List.mem_append, List.mem_flatMap]
  grind

theorem isConcrete_iff (file : SourceFile) : file.isConcrete = true ↔ ¬ file.HasAbstract :=
  file.isConcrete_iff_statements.trans Statement.allConcrete_iff_not_within

/-- The three ends that asking a file for its code can come to. -/
theorem code_cases (file : SourceFile) (unit : Option String) :
    (file.HasAbstract ∧ file.code unit = .error .abstractStatement) ∨
    (¬ file.HasAbstract ∧ file.HasTargetless ∧ file.code unit = .error .importWithoutTarget) ∨
    (¬ file.HasAbstract ∧ ¬ file.HasTargetless ∧ ∃ text, file.code unit = .ok text) := by
  rw [code_eq, hasTargetless_iff]
  by_cases found : file.HasAbstract
  · have refused : ¬ file.isConcrete = true := fun concrete => file.isConcrete_iff.1 concrete found
    exact .inl ⟨found, if_neg refused⟩
  · rw [if_pos (file.isConcrete_iff.2 found)]
    by_cases without : ∃ i ∈ file.allImports, i.Targetless
    · rw [Import.mapM_line_of_targetless without]
      exact .inr (.inl ⟨found, without, rfl⟩)
    · obtain ⟨lines, asked, -⟩ := Import.mapM_line fun i member targetless =>
        without ⟨i, member, targetless⟩
      rw [asked]
      exact .inr (.inr ⟨found, without, _, rfl⟩)

end SourceFile

def Request.isCode : Request → Bool
  | .code _ => true
  | .addImport _ => false

def marked (items : List (α × Bool)) : List α :=
  (items.filter Prod.snd).map Prod.fst

@[simp] theorem marked_cons_true (item : α) (items : List (α × Bool)) :
    marked ((item, true) :: items) = item :: marked items := rfl

@[simp] theorem marked_cons_false (item : α) (items : List (α × Bool)) :
    marked ((item, false) :: items) = marked items := rfl

namespace SourceFile

def afterAll (file : SourceFile) : List Request → SourceFile
  | [] => file
  | request :: rest => (file.answer request).2.afterAll rest

/-- Asked for its code a file answers with it, or with its fault, and is left as it is. -/
theorem run_code (file : SourceFile) (unit : Option String) :
    (Request.code unit).run file =
      match file.code unit with
      | .ok text => .ok (.code text) file
      | .error fault => .error fault file := by
  have asked : (Request.code unit).run file =
      (do return .code (← ofExcept (file.code unit)) : EStateM Fault SourceFile Response) file :=
    bind_of_ok (s := file) rfl
  rw [asked]
  cases file.code unit <;> rfl

theorem answer_of_isCode {request : Request} (asks : request.isCode = true) (file : SourceFile) :
    (file.answer request).2 = file := by
  cases request with
  | code unit =>
    rw [answer, run_code]
    cases file.code unit <;> rfl
  | addImport => cases asks

theorem answerAll_marked {steps : List (Request × Bool)}
    (spare : ∀ step ∈ steps, step.2 = false → step.1.isCode = true) (file : SourceFile) :
    file.afterAll (steps.map Prod.fst) = file.afterAll (marked steps) ∧
      marked ((file.answerAll (steps.map Prod.fst)).zip (steps.map Prod.snd)) =
        file.answerAll (marked steps) := by
  induction steps generalizing file with
  | nil => exact ⟨rfl, rfl⟩
  | cons step rest ih =>
    obtain ⟨request, mark⟩ := step
    have later := ih (fun other member => spare other (by simp [member])) (file.answer request).2
    cases mark with
    | true => simpa [afterAll, answerAll] using later
    | false =>
      have same := answer_of_isCode (spare (request, false) (by simp) rfl) file
      rw [same] at later
      simpa [afterAll, answerAll, same] using later

/-- Which files have no code, and why: a statement without a form of its own counts before an import
without a target, and nothing else counts. No request for the code, whatever comes of it, is noticed by
the requests after it. -/
theorem refused_iff (file : SourceFile) :
    (∀ unit : Option String,
      (∀ depth, file.code unit ≠ .error (.belowZero depth)) ∧
      (file.code unit = .error .abstractStatement ↔ file.HasAbstract) ∧
      (file.code unit = .error .importWithoutTarget ↔ ¬ file.HasAbstract ∧ file.HasTargetless) ∧
      ((∃ text, file.code unit = .ok text) ↔ ¬ file.HasAbstract ∧ ¬ file.HasTargetless)) ∧
    ∀ steps : List (Request × Bool), (∀ step ∈ steps, step.2 = false → step.1.isCode = true) →
      file.afterAll (steps.map Prod.fst) = file.afterAll (marked steps) ∧
        marked ((file.answerAll (steps.map Prod.fst)).zip (steps.map Prod.snd)) =
          file.answerAll (marked steps) := by
  refine ⟨fun unit => ?_, fun steps spare => answerAll_marked spare file⟩
  obtain ⟨found, code⟩ | ⟨none, found, code⟩ | ⟨none, valid, text, code⟩ := file.code_cases unit
  · simp [code, found]
  · simp [code, none, found]
  · simp [code, none, valid]

theorem refused_iff_both_faults :
    let file : SourceFile :=
      { imports := [{ asName := some "x" }]
        classes := [{ name := "C", methods := [
          { name := "f", body := [.branch "c" [.pass] [.loop "i" "r" [.abstract]]] }] }] }
    let steps : List (Request × Bool) :=
      [(.code none, false), (.addImport { target := some "os" }, true), (.code (some " "), false),
        (.addImport {}, true), (.code none, true)]
    (∀ step ∈ steps, step.2 = false → step.1.isCode = true) ∧
      file.HasAbstract ∧ file.HasTargetless ∧
      (∀ unit, file.code unit = .error .abstractStatement) ∧
      file.afterAll (steps.map Prod.fst) = file.afterAll (marked steps) ∧
        marked ((file.answerAll (steps.map Prod.fst)).zip (steps.map Prod.snd)) =
          file.answerAll (marked steps) := by
  intro file steps
  have spare : ∀ step ∈ steps, step.2 = false → step.1.isCode = true := by decide
  have abstract : file.HasAbstract :=
    ⟨_, .head _, .orElse (.head _) (.loop (.head _) .here "i" "r") "c" [.pass]⟩
  have targetless : file.HasTargetless := ⟨{ asName := some "x" }, .inl (.head _), by decide⟩
  obtain ⟨codes, runs⟩ := file.refused_iff
  exact ⟨spare, abstract, targetless, fun unit => (codes unit).2.1.2 abstract, runs steps spare⟩

end SourceFile

end IndentedText.Code
