/-!
Lines with a depth, and the text they make once an indent unit is chosen.
-/

namespace IndentedText

structure Line where
  depth : Nat
  text : String
  deriving DecidableEq

/-- One unit per level; at or below level zero there is none. Levels are not counted out for the empty
unit, so it costs nothing at any level. -/
def indentation (unit : String) (level : Int) : String :=
  if unit = "" then "" else String.join (List.replicate level.toNat unit)

theorem indentation_eq_join (unit : String) (level : Int) :
    indentation unit level = String.join (List.replicate level.toNat unit) := by
  unfold indentation
  split
  · rename_i h
    subst h
    induction level.toNat with
    | zero => simp
    | succ n ih => simp [List.replicate_succ, ← ih]
  · rfl

/-- The line as it is printed where `ambient` levels are added to its own depth. -/
def Line.render (unit : String) (ambient : Int) (line : Line) : String :=
  indentation unit (ambient + line.depth) ++ line.text ++ "\n"

def Line.renderAll (unit : String) (ambient : Int) (lines : List Line) : String :=
  String.join (lines.map (Line.render unit ambient))

@[simp] theorem Line.renderAll_nil (unit : String) (ambient : Int) :
    Line.renderAll unit ambient [] = "" := by
  simp [Line.renderAll]

@[simp] theorem Line.renderAll_cons (unit : String) (ambient : Int) (line : Line)
    (lines : List Line) :
    Line.renderAll unit ambient (line :: lines) =
      line.render unit ambient ++ Line.renderAll unit ambient lines := by
  simp [Line.renderAll]

@[simp] theorem Line.renderAll_append (unit : String) (ambient : Int) (lines others : List Line) :
    Line.renderAll unit ambient (lines ++ others) =
      Line.renderAll unit ambient lines ++ Line.renderAll unit ambient others := by
  simp [Line.renderAll]

end IndentedText
