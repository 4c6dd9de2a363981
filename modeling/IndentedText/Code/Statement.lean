import IndentedText.Code.Keywords
import IndentedText.Section.Writing

/-!
Statements, and how they are written to a section.
-/

namespace IndentedText.Code

inductive Statement where
  | pass
  /-- A statement of no particular kind, which cannot be written. -/
  | abstract
  | assign (target value : String)
  | ret (value : Option String)
  | call (function : String) (arguments : List String) (keywords : Keywords)
  | branch (condition : String) (body orElse : List Statement)
  | loop (target iterable : String) (body : List Statement)

namespace Statement

def assignLine (target value : String) : String :=
  target ++ " = " ++ value

/-- An empty value is still a value. -/
def returnLine : Option String → String
  | none => "return"
  | some value => "return " ++ value

def callLine (function : String) (arguments : List String) (keywords : Keywords) : String :=
  function ++ "(" ++ ", ".intercalate (arguments ++ keywords.arguments) ++ ")"

def branchLine (condition : String) : String :=
  "if " ++ condition ++ ":"

def loopLine (target iterable : String) : String :=
  "for " ++ target ++ " in " ++ iterable ++ ":"

open SectionM

mutual

/-- Writes a statement at the depth of the section. After a fault inside it a loop has stepped out
again and a branch has not. -/
def emit : Statement → SectionM Unit
  | pass => writeLine "pass"
  | abstract => throw .abstractStatement
  | assign target value => writeLine (assignLine target value)
  | ret value => writeLine (returnLine value)
  | call function arguments keywords => writeLine (callLine function arguments keywords)
  | branch condition body orElse => do
    openBlock (branchLine condition)
    emitBody body
    unless orElse.isEmpty do
      turnBlock "else:"
      emitBody orElse
    outdent
  | loop target iterable body => do
    writeLine (loopLine target iterable)
    indented (emitBody body)

def emitBody : List Statement → SectionM Unit
  | [] => writeLine "pass"
  | statement :: rest => do
    statement.emit
    emitAll rest

def emitAll : List Statement → SectionM Unit
  | [] => pure ()
  | statement :: rest => do
    statement.emit
    emitAll rest

end

end Statement

end IndentedText.Code
