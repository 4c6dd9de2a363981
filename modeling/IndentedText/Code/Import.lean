import IndentedText.Fault
import IndentedText.Text.Given

/-!
Imports: as they are asked for, and as a line of code. Asking leaves room for fields that do not matter,
so two requests can be different and have the same line.
-/

namespace IndentedText.Code

/-- A request to import. Two requests are the same only if all four fields are. -/
structure Import where
  target : Option String := none
  asName : Option String := none
  /-- The module to take names from. If given, it is the one that counts. -/
  origin : Option String := none
  /-- The names to take. No names means all of them. -/
  names : List String := []
  deriving DecidableEq

def Import.line (i : Import) : Except Fault String :=
  match Text.given i.origin with
  | some origin =>
    if i.names.isEmpty then .ok ("from " ++ origin ++ " import *")
    else .ok ("from " ++ origin ++ " import " ++ ", ".intercalate i.names)
  | none =>
    match Text.given i.target with
    | none => .error .importWithoutTarget
    | some target =>
      match Text.given i.asName with
      | some asName => .ok ("import " ++ target ++ " as " ++ asName)
      | none => .ok ("import " ++ target)

end IndentedText.Code
