import IndentedText.Code.Layout

/-!
The layout of code with its blocks shown: of every line it is said whether it opens one.
-/

namespace IndentedText.Code

structure OutlineLine where
  line : Line
  /-- The line is the head of a class, a function, a branch or a loop, or stands between the two
  bodies of a branch. -/
  opens : Bool
  deriving DecidableEq

namespace OutlineLine

def opening (depth : Nat) (text : String) : OutlineLine :=
  ⟨⟨depth, text⟩, true⟩

def plain (line : Line) : OutlineLine :=
  ⟨line, false⟩

@[simp] theorem line_opening (depth : Nat) (text : String) : (opening depth text).line = ⟨depth, text⟩ :=
  rfl

@[simp] theorem opens_opening (depth : Nat) (text : String) : (opening depth text).opens = true := rfl

@[simp] theorem line_plain (line : Line) : (plain line).line = line := rfl

@[simp] theorem opens_plain (line : Line) : (plain line).opens = false := rfl

@[simp] theorem line_comp_plain : line ∘ plain = id := rfl

theorem map_line_plain (lines : List Line) : (lines.map plain).map line = lines := by
  simp

end OutlineLine

open OutlineLine

namespace Statement

mutual

def outline : Statement → Nat → List OutlineLine
  | branch condition body orElse, depth =>
    opening depth (branchLine condition) :: outlineBody body (depth + 1) ++
      if orElse.isEmpty then [] else opening depth "else:" :: outlineBody orElse (depth + 1)
  | loop target iterable body, depth =>
    opening depth (loopLine target iterable) :: outlineBody body (depth + 1)
  | statement, depth => (statement.layout depth).map plain

def outlineBody : List Statement → Nat → List OutlineLine
  | [], depth => [plain ⟨depth, "pass"⟩]
  | statement :: rest, depth => statement.outline depth ++ outlineAll rest depth

def outlineAll : List Statement → Nat → List OutlineLine
  | [], _ => []
  | statement :: rest, depth => statement.outline depth ++ outlineAll rest depth

end

mutual

theorem map_line_outline : ∀ (statement : Statement) (depth : Nat),
    (statement.outline depth).map line = statement.layout depth
  | pass, depth | abstract, depth | assign .., depth | ret .., depth | call .., depth => by
    simp only [outline, map_line_plain]
  | branch condition body orElse, depth => by
    rw [outline, layout]
    split <;> simp [map_line_outlineBody]
  | loop target iterable body, depth => by
    simp [outline, layout, map_line_outlineBody]

theorem map_line_outlineBody : ∀ (body : List Statement) (depth : Nat),
    (outlineBody body depth).map line = layoutBody body depth
  | [], depth => rfl
  | statement :: rest, depth => by
    rw [outlineBody, layoutBody, List.map_append, map_line_outline statement, map_line_outlineAll rest]

theorem map_line_outlineAll : ∀ (body : List Statement) (depth : Nat),
    (outlineAll body depth).map line = layoutAll body depth
  | [], depth => rfl
  | statement :: rest, depth => by
    rw [outlineAll, layoutAll, List.map_append, map_line_outline statement, map_line_outlineAll rest]

end

end Statement

namespace FunctionDef

def outline (f : FunctionDef) (depth : Nat) : List OutlineLine :=
  (linesAt depth (f.decorators.map ("@" ++ ·))).map plain ++
    opening depth f.headLine :: ((docLayout f.doc (depth + 1)).map plain ++
      if f.body = [] ∧ f.doc ≠ "" then [] else Statement.outlineBody f.body (depth + 1))

theorem map_line_outline (f : FunctionDef) (depth : Nat) :
    (f.outline depth).map line = f.layout depth := by
  unfold outline layout
  split <;> simp [linesAt, Function.comp_def, Statement.map_line_outlineBody]

end FunctionDef

namespace ClassDef

def outlineMethods (first : Bool) : List FunctionDef → Nat → List OutlineLine
  | [], _ => []
  | method :: rest, depth =>
    (linesAt depth (if first then [] else [""])).map plain ++ method.outline depth ++
      outlineMethods false rest depth

def outlineBody (c : ClassDef) (depth : Nat) : List OutlineLine :=
  (docLayout c.doc depth).map plain ++
    (linesAt depth (Table.align (c.fields.map ClassField.row))).map plain ++
    outlineMethods (c.doc == "" && c.fields.isEmpty) c.methods depth ++
    (linesAt depth
      (if c.doc = "" ∧ c.fields = [] ∧ c.methods = [] then ["pass"] else [])).map plain

def outline (c : ClassDef) (depth : Nat) : List OutlineLine :=
  (linesAt depth (c.decorators.map ("@" ++ ·))).map plain ++
    (opening depth c.headLine :: c.outlineBody (depth + 1) ++ [plain ⟨depth, ""⟩])

theorem map_line_outlineMethods (first : Bool) (methods : List FunctionDef) (depth : Nat) :
    (outlineMethods first methods depth).map line = layoutMethods first methods depth := by
  induction methods generalizing first with
  | nil => rfl
  | cons method rest ih =>
    simp only [outlineMethods, layoutMethods, List.map_append, map_line_plain,
      FunctionDef.map_line_outline, ih]

theorem map_line_outline (c : ClassDef) (depth : Nat) : (c.outline depth).map line = c.layout depth := by
  have methods := map_line_outlineMethods (c.doc == "" && c.fields.isEmpty) c.methods (depth + 1)
  simp only [outline, outlineBody, layout, List.map_append, List.map_cons, map_line_plain, methods]
  simp [linesAt]

end ClassDef

namespace SourceFile

def outline (file : SourceFile) (imports : List String) : List OutlineLine :=
  (docLayout file.doc 0 ++ importLayout imports).map plain ++
    file.classes.flatMap (ClassDef.outline · 0) ++
    file.functions.flatMap (fun f => f.outline 0 ++ [plain ⟨0, ""⟩]) ++
    Statement.outlineAll file.trailer 0

theorem map_line_outline (file : SourceFile) (imports : List String) :
    (file.outline imports).map line = file.layout imports := by
  simp [outline, layout, List.map_flatMap, ClassDef.map_line_outline, FunctionDef.map_line_outline,
    Statement.map_line_outlineAll, linesAt]

end SourceFile

end IndentedText.Code
