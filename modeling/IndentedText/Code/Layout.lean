import IndentedText.Code.SourceFile

/-!
Code as a plain list of lines: what is written to a section at some depth, said without a section.
Only code whose statements all have a form of their own has a layout worth the name.
-/

namespace IndentedText.Code

namespace Statement

mutual

def isConcrete : Statement → Bool
  | abstract => false
  | branch _ body orElse => allConcrete body && allConcrete orElse
  | loop _ _ body => allConcrete body
  | _ => true

def allConcrete : List Statement → Bool
  | [] => true
  | statement :: rest => statement.isConcrete && allConcrete rest

end

mutual

def layout : Statement → Nat → List Line
  | pass, depth => [⟨depth, "pass"⟩]
  | abstract, _ => []
  | assign target value, depth => [⟨depth, assignLine target value⟩]
  | ret value, depth => [⟨depth, returnLine value⟩]
  | call function arguments keywords, depth => [⟨depth, callLine function arguments keywords⟩]
  | branch condition body orElse, depth =>
    ⟨depth, branchLine condition⟩ :: layoutBody body (depth + 1) ++
      if orElse.isEmpty then [] else ⟨depth, "else:"⟩ :: layoutBody orElse (depth + 1)
  | loop target iterable body, depth =>
    ⟨depth, loopLine target iterable⟩ :: layoutBody body (depth + 1)

def layoutBody : List Statement → Nat → List Line
  | [], depth => [⟨depth, "pass"⟩]
  | statement :: rest, depth => statement.layout depth ++ layoutAll rest depth

def layoutAll : List Statement → Nat → List Line
  | [], _ => []
  | statement :: rest, depth => statement.layout depth ++ layoutAll rest depth

end

end Statement

def linesAt (depth : Nat) (texts : List String) : List Line :=
  texts.map fun text => ⟨depth, text⟩

def docLayout (doc : String) (depth : Nat) : List Line :=
  if doc = "" then []
  else linesAt depth (["\"\"\""] ++ Text.lines (Text.trim doc) ++ ["\"\"\""])

namespace FunctionDef

def isConcrete (f : FunctionDef) : Bool :=
  Statement.allConcrete f.body

def layout (f : FunctionDef) (depth : Nat) : List Line :=
  linesAt depth (f.decorators.map ("@" ++ ·) ++ [f.headLine]) ++ docLayout f.doc (depth + 1) ++
    if f.body = [] ∧ f.doc ≠ "" then [] else Statement.layoutBody f.body (depth + 1)

end FunctionDef

namespace ClassDef

def isConcrete (c : ClassDef) : Bool :=
  c.methods.all FunctionDef.isConcrete

def layoutMethods (first : Bool) : List FunctionDef → Nat → List Line
  | [], _ => []
  | method :: rest, depth =>
    linesAt depth (if first then [] else [""]) ++ method.layout depth ++
      layoutMethods false rest depth

def layout (c : ClassDef) (depth : Nat) : List Line :=
  linesAt depth (c.decorators.map ("@" ++ ·) ++ [c.headLine]) ++ docLayout c.doc (depth + 1) ++
    linesAt (depth + 1) (Table.align (c.fields.map ClassField.row)) ++
    layoutMethods (c.doc == "" && c.fields.isEmpty) c.methods (depth + 1) ++
    linesAt (depth + 1)
      (if c.doc = "" ∧ c.fields = [] ∧ c.methods = [] then ["pass"] else []) ++
    linesAt depth [""]

end ClassDef

namespace Node

def isConcrete : Node → Bool
  | .statement s => s.isConcrete
  | .function f => f.isConcrete
  | .classDef c => c.isConcrete

def layout : Node → Nat → List Line
  | .statement s => s.layout
  | .function f => f.layout
  | .classDef c => c.layout

end Node

namespace SourceFile

def isConcrete (file : SourceFile) : Bool :=
  file.classes.all ClassDef.isConcrete && file.functions.all FunctionDef.isConcrete &&
    Statement.allConcrete file.trailer

/-- All imports that the file relies on: its own, those of its classes with those of their methods, those
of its functions. -/
def allImports (file : SourceFile) : List Import :=
  file.imports ++
    file.classes.flatMap (fun c => c.requires ++ c.methods.flatMap FunctionDef.requires) ++
    file.functions.flatMap FunctionDef.requires

def Asks (file : SourceFile) (i : Import) : Prop :=
  i ∈ file.imports ∨ (∃ c ∈ file.classes, i ∈ c.requires ∨ ∃ method ∈ c.methods, i ∈ method.requires) ∨
    ∃ f ∈ file.functions, i ∈ f.requires

theorem mem_allImports {file : SourceFile} {i : Import} : i ∈ file.allImports ↔ file.Asks i := by
  simp [allImports, Asks]

def importLayout (imports : List String) : List Line :=
  if imports.isEmpty then [] else linesAt 0 (imports.eraseDups ++ [""])

def layout (file : SourceFile) (imports : List String) : List Line :=
  docLayout file.doc 0 ++ importLayout imports ++
    file.classes.flatMap (ClassDef.layout · 0) ++
    file.functions.flatMap (fun f => f.layout 0 ++ linesAt 0 [""]) ++
    Statement.layoutAll file.trailer 0

end SourceFile

end IndentedText.Code
