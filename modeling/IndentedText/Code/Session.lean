import IndentedText.Code.SourceFile

/-!
Requests to one source file, answered in order. A fault is an answer like any other, and what was done to
the file before it is kept.
-/

namespace IndentedText.Code

inductive Request where
  | code (unit : Option String)
  | addImport (i : Import)

inductive Response where
  | code (text : String)
  | imports (imports : List Import)

def Request.run : Request → EStateM Fault SourceFile Response
  | code unit => do
    let file ← get
    return .code (← ofExcept (file.code unit))
  | addImport i => do
    modify fun file => file.addImport i
    return .imports (← get).imports

namespace SourceFile

def answer (file : SourceFile) (request : Request) : Except Fault Response × SourceFile :=
  match request.run file with
  | .ok response file => (.ok response, file)
  | .error fault file => (.error fault, file)

def answerAll (file : SourceFile) : List Request → List (Except Fault Response)
  | [] => []
  | request :: rest => (file.answer request).1 :: (file.answer request).2.answerAll rest

end SourceFile

end IndentedText.Code
