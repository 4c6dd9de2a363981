import IndentedText.Fault
import IndentedText.Line
import IndentedText.Table
import IndentedText.Text.LineBreak

/-!
A section: a run of committed fragments, and what waits to be committed to it. Raw text waits until
the line it belongs to is complete, rows wait until their table is.
-/

namespace IndentedText

/-- What a section is made of: a line, or the place of another section, given by its number. -/
inductive Fragment where
  | line (line : Line)
  | nested (child : Nat)
  deriving DecidableEq

def Section.standardUnit : String := "   "

structure Section where
  /-- What each level of depth is printed as. -/
  unit : String := Section.standardUnit
  /-- The depth of the lines committed from now on. -/
  depth : Nat := 0
  /-- How many writes the section has received, reserved places included. -/
  written : Nat := 0
  /-- The waiting raw text, in the pieces it was written in. -/
  raw : List String := []
  /-- Something was written since the last commit, be it only an empty text. -/
  pending : Bool := false
  rows : Table := []
  fragments : List Fragment := []
  /-- A hidden section leaves no trace where it stands. -/
  visible : Bool := true
  visibleIfEmpty : Bool := true
  deriving DecidableEq

structure Status where
  depth : Nat
  pending : Bool
  empty : Bool
  bodyEmpty : Bool
  fragments : Nat
  deriving DecidableEq

namespace Section

def child (s : Section) : Section where
  unit := s.unit
  depth := s.depth

@[simp] theorem child_unit (s : Section) : s.child.unit = s.unit := rfl

@[simp] theorem child_depth (s : Section) : s.child.depth = s.depth := rfl

@[simp] theorem child_fragments (s : Section) : s.child.fragments = [] := rfl

def commitRows (s : Section) : Section :=
  { s with
    fragments := s.fragments ++ s.rows.align.map fun text => .line ⟨s.depth, text⟩
    rows := [] }

/-- Commits all that waits: the rows first, then the raw text. Once anything waits the text is a line
even when it is empty, so a table with no text behind it is followed by a blank line. -/
def commit (s : Section) : Section :=
  let s := s.commitRows
  if s.pending then
    { s with
      fragments := s.fragments ++ [.line ⟨s.depth, String.join s.raw⟩]
      raw := []
      pending := false }
  else s

def write (text : String) (s : Section) : Section :=
  { s with written := s.written + 1, raw := s.raw ++ [text], pending := true }

def writeLine (text : String) (s : Section) : Section :=
  (s.write text).commit

/-- Writes a text line by line. A text without lines changes nothing. -/
def writeLines (text : String) (s : Section) : Section :=
  (Text.lines text).foldl (fun s line => s.writeLine line) s

def queueRow (columns : Columns) (s : Section) : Section :=
  { s with written := s.written + 1, rows := s.rows ++ [columns.row], pending := true }

def indent (s : Section) : Section :=
  { s with depth := s.depth + 1 }

def openBlock (text : String) (s : Section) : Section :=
  (s.writeLine text).indent

def reserve (child : Nat) (s : Section) : Section :=
  let s := s.commit
  { s with written := s.written + 1, fragments := s.fragments ++ [.nested child] }

def isEmpty (s : Section) : Bool :=
  s.written == 0

/-- No fragment is committed and no raw text waits. Waiting rows do not count. -/
def isBodyEmpty (s : Section) : Bool :=
  s.fragments.isEmpty && (String.join s.raw).isEmpty

def isOmitted (s : Section) : Bool :=
  !s.visible || (!s.visibleIfEmpty && s.isBodyEmpty)

def status (s : Section) : Status where
  depth := s.depth
  pending := s.pending
  empty := s.isEmpty
  bodyEmpty := s.isBodyEmpty
  fragments := s.fragments.length

def describe (s : Section) : String :=
  "IndentedDocumentBuilder(depth=" ++ toString s.depth ++
    ", fragments=" ++ toString s.fragments.length ++
    ", pending=" ++ (if s.pending then "True" else "False") ++ ")"

end Section

end IndentedText
