import IndentedText.Code.Import
import IndentedText.Code.Signature
import IndentedText.Code.Statement
import IndentedText.Text.Blank

/-!
Definitions of functions and classes, and how they are written to a section.
-/

namespace IndentedText.Code

open SectionM

/-- Writes a documentation text between quotes, without the blanks around it. Blanks alone still make
a documentation, one without lines. -/
def emitDoc (doc : String) : SectionM Unit :=
  if doc = "" then pure ()
  else do
    writeLine "\"\"\""
    writeLines (Text.trim doc)
    writeLine "\"\"\""

structure FunctionDef where
  name : String
  params : List Parameter := []
  result : Option String := none
  doc : String := ""
  body : List Statement := []
  decorators : List String := []
  requires : List Import := []

namespace FunctionDef

def headLine (f : FunctionDef) : String :=
  "def " ++ f.name ++ "(" ++ ", ".intercalate (f.params.map Parameter.signature) ++ ")" ++
    (match Text.given f.result with
      | none => ""
      | some result => " -> " ++ result) ++ ":"

/-- Writes the function. A documentation text alone is body enough. -/
def emit (f : FunctionDef) : SectionM Unit := do
  f.decorators.forM fun decorator => writeLine ("@" ++ decorator)
  openBlock f.headLine
  emitDoc f.doc
  if !f.body.isEmpty || f.doc == "" then
    Statement.emitBody f.body
  outdent

end FunctionDef

structure ClassDef where
  name : String
  bases : List String := []
  doc : String := ""
  fields : List ClassField := []
  methods : List FunctionDef := []
  decorators : List String := []
  requires : List Import := []

namespace ClassDef

def headLine (c : ClassDef) : String :=
  "class " ++ c.name ++
    (if c.bases.isEmpty then "" else "(" ++ ", ".intercalate c.bases ++ ")") ++ ":"

def emitMethods (first : Bool) : List FunctionDef → SectionM Unit
  | [] => pure ()
  | method :: rest => do
    unless first do
      writeLine ""
    method.emit
    emitMethods false rest

/-- The fields are one table, which the next line after them completes. A blank line ends the class. -/
def emit (c : ClassDef) : SectionM Unit := do
  c.decorators.forM fun decorator => writeLine ("@" ++ decorator)
  openBlock c.headLine
  emitDoc c.doc
  c.fields.forM fun field => queueRow (.each field.row)
  emitMethods (c.fields.isEmpty && c.doc == "") c.methods
  if c.methods.isEmpty && c.fields.isEmpty && c.doc == "" then
    writeLine "pass"
  closeBlock ""

end ClassDef

inductive Node where
  | statement (s : Statement)
  | function (f : FunctionDef)
  | classDef (c : ClassDef)

def Node.emit : Node → SectionM Unit
  | .statement s => s.emit
  | .function f => f.emit
  | .classDef c => c.emit

end IndentedText.Code
