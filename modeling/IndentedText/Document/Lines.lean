import IndentedText.Document

/-!
The lines of a section, read off without committing anything: what waits counts as committed, every
reserved place stands for the lines of its section, and a hidden section has none.
-/

namespace IndentedText

namespace Section

def rowLines (s : Section) : List Fragment :=
  s.rows.align.map fun text => .line ⟨s.depth, text⟩

def rawLines (s : Section) : List Fragment :=
  if s.pending then [.line ⟨s.depth, String.join s.raw⟩] else []

/-- The fragments of the section, and those that all that waits will make. -/
def content (s : Section) : List Fragment :=
  s.fragments ++ s.rowLines ++ s.rawLines

@[simp] theorem commit_fragments (s : Section) : s.commit.fragments = s.content := by
  cases h : s.pending <;> simp [commit, commitRows, content, rowLines, rawLines, h]

end Section

def Fragment.lines (below : Nat → List Line) : Fragment → List Line
  | .line l => [l]
  | .nested child => below child

@[simp] theorem Fragment.lines_line (below : Nat → List Line) (l : Line) :
    (Fragment.line l).lines below = [l] := rfl

@[simp] theorem Fragment.lines_nested (below : Nat → List Line) (child : Nat) :
    (Fragment.nested child).lines below = below child := rfl

def Document.lines (d : Document) (b : Nat) : List Line :=
  if (d.get b).visible then
    (d.get b).content.flatMap
      (Fragment.lines fun child => if _ : b < child ∧ child < d.size then d.lines child else [])
  else []
termination_by d.size - b

end IndentedText
