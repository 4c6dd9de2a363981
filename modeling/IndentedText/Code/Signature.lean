import IndentedText.Table
import IndentedText.Text.Given

/-!
Annotated names: parameters of a function and fields of a class.
-/

namespace IndentedText.Code

structure Parameter where
  name : String
  annotation : Option String := none
  initial : Option String := none
  deriving DecidableEq

/-- The parameter as it stands in a signature. The equals sign has spaces around it only after an
annotation; an empty annotation is none, but an empty initial value is one. -/
def Parameter.signature (p : Parameter) : String :=
  match Text.given p.annotation, p.initial with
  | none, none => p.name
  | none, some initial => p.name ++ "=" ++ initial
  | some annotation, none => p.name ++ ": " ++ annotation
  | some annotation, some initial => p.name ++ ": " ++ annotation ++ " = " ++ initial

structure ClassField where
  name : String
  annotation : String
  initial : Option String := none
  deriving DecidableEq

def ClassField.row (f : ClassField) : Row :=
  match f.initial with
  | none => [some (f.name ++ ": "), some f.annotation]
  | some initial => [some (f.name ++ ": "), some (f.annotation ++ " "), some ("= " ++ initial)]

end IndentedText.Code
