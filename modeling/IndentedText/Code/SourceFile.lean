import IndentedText.Code.Definition
import IndentedText.Document.Render

/-!
Source files. The place of the imports is reserved at the top and filled last, when everything that
can ask for an import has been written.
-/

namespace IndentedText.Code

open Document

structure SourceFile where
  doc : String := ""
  imports : List Import := []
  classes : List ClassDef := []
  functions : List FunctionDef := []
  trailer : List Statement := []

namespace SourceFile

def standardUnit : String := "    "

def addImport (file : SourceFile) (i : Import) : SourceFile :=
  if i ∈ file.imports then file else { file with imports := file.imports ++ [i] }

def emitClass (imports : List Import) (c : ClassDef) : SectionM (List Import) := do
  c.emit
  return c.methods.foldl (fun imports method => imports ++ method.requires) (imports ++ c.requires)

def emitFunction (imports : List Import) (f : FunctionDef) : SectionM (List Import) := do
  f.emit
  SectionM.writeLine ""
  return imports ++ f.requires

/-- Writes classes, functions, and the statements after them, and returns the imports of the file with
those collected on the way. A blank line follows each function; a class brings its own. -/
def emitBody (file : SourceFile) : SectionM (List Import) := do
  let imports ← file.classes.foldlM emitClass file.imports
  let imports ← file.functions.foldlM emitFunction imports
  Statement.emitAll file.trailer
  return imports

def emitUnseen (seen : List String) : List Import → SectionM Unit
  | [] => pure ()
  | i :: rest => do
    let line ← ofExcept i.line
    if line ∈ seen then emitUnseen seen rest
    else
      SectionM.writeLine line
      emitUnseen (line :: seen) rest

def emitImports (imports : List Import) : SectionM Unit := do
  emitUnseen [] imports
  unless (← get).isEmpty do
    SectionM.writeLine ""

/-- Writes the file into the root of an empty document. The body comes before the imports, so a fault
in the body is the one reported. -/
def write (file : SourceFile) : DocumentM Unit := do
  inSection 0 (emitDoc file.doc)
  let top ← nest 0
  inSection top (modify fun s => { s with visibleIfEmpty := false })
  let body ← nest 0
  let imports ← inSection body file.emitBody
  inSection top (emitImports imports)

def code (file : SourceFile) (unit : Option String) : Except Fault String :=
  match (do file.write; Document.text 0 : DocumentM String) (Document.new unit) with
  | .ok code _ => .ok code
  | .error fault _ => .error fault

end SourceFile

end IndentedText.Code
