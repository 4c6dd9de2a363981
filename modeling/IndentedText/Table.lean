/-!
Tables of text. Every cell is padded on the right to the widest cell of its column, the last column
included, so cells of one column start at one offset in all rows that reach it.
-/

namespace IndentedText

/-- A row of cells. An absent cell has no text, yet it takes its column. -/
abbrev Row := List (Option String)

/-- How the columns of a row are given: each for itself, or all of them as one sequence. A text for itself
is a column, although it is a sequence too. -/
inductive Columns where
  | each (cells : Row)
  | sequence (cells : Row)
  deriving DecidableEq

def Columns.row : Columns → Row
  | each cells | sequence cells => cells

@[simp] theorem Columns.row_each (cells : Row) : (each cells).row = cells := rfl

/-- Rows that share their column widths. They need not be equally long. -/
abbrev Table := List Row

/-- Entry by entry the larger of two lists of widths; the longer list keeps its tail. -/
def widen : List Nat → List Nat → List Nat
  | [], others => others
  | width :: widths, [] => width :: widths
  | width :: widths, other :: others => max width other :: widen widths others

@[simp] theorem widen_nil_left (widths : List Nat) : widen [] widths = widths := by
  cases widths <;> rfl

@[simp] theorem widen_nil_right (widths : List Nat) : widen widths [] = widths := by
  cases widths <;> rfl

@[simp] theorem length_widen (widths others : List Nat) :
    (widen widths others).length = max widths.length others.length := by
  induction widths generalizing others with
  | nil => simp
  | cons width widths ih =>
    cases others with
    | nil => simp
    | cons other others => simp [widen, ih]

def cellText (cell : Option String) : String :=
  cell.getD ""

/-- The width of a cell is its number of code points. -/
def cellWidth (cell : Option String) : Nat :=
  (cellText cell).length

def Row.widths (row : Row) : List Nat :=
  row.map cellWidth

namespace Table

def widths (table : Table) : List Nat :=
  table.foldl (fun widths row => widen widths row.widths) []

theorem length_le_length_widths {table : Table} {row : Row} (member : row ∈ table) :
    row.length ≤ table.widths.length := by
  have grows (table : Table) (start : List Nat) : start.length ≤
      (table.foldl (fun widths row => widen widths row.widths) start).length ∧
        ∀ row ∈ table, row.length ≤
          (table.foldl (fun widths row => widen widths row.widths) start).length := by
    induction table generalizing start with
    | nil => simp
    | cons first rest ih =>
      obtain ⟨kept, reached⟩ := ih (widen start first.widths)
      simp only [length_widen, Row.widths, List.length_map] at kept
      refine ⟨Nat.le_trans (Nat.le_max_left ..) kept, fun row member => ?_⟩
      obtain rfl | member := List.mem_cons.1 member
      · exact Nat.le_trans (Nat.le_max_right ..) kept
      · exact reached row member
  exact (grows table []).2 row member

def pad (width : Nat) (cell : Option String) : String :=
  cellText cell ++ String.ofList (List.replicate (width - cellWidth cell) ' ')

def alignRow (widths : List Nat) (row : Row) : String :=
  String.join (List.zipWith pad widths row)

theorem alignRow_ne_empty {widths : List Nat} {cell : Option String} {row : Row}
    (columns : (cell :: row).length ≤ widths.length) (text : cellText cell ≠ "") :
    alignRow widths (cell :: row) ≠ "" := by
  cases widths with
  | nil => simp at columns
  | cons width widths => simp [alignRow, pad, text]

def align (table : Table) : List String :=
  table.map (alignRow table.widths)

@[simp] theorem align_nil : align [] = [] := rfl

end Table

end IndentedText
