/-!
What can go wrong while a document is written.
-/

namespace IndentedText

inductive Fault where
  /-- The depth of a section, given here, has no room for an outdent. -/
  | belowZero (depth : Nat)
  | importWithoutTarget
  | abstractStatement
  /-- The caller gave up, for a reason of its own. -/
  | raised (message : String)
  deriving DecidableEq

def Fault.message : Fault → String
  | .belowZero depth =>
    "Local indent cannot be less than zero (current depth: " ++ toString depth ++ ")"
  | .importWithoutTarget => "PyImport needs either `module` or `from_module`"
  | .abstractStatement => ""
  | .raised message => message

end IndentedText
