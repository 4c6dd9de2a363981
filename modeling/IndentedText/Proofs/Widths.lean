import Mathlib.Data.List.GetD
import IndentedText.Table

/-!
The widths of a table. One pass over the cells finds them: it keeps the widths found so far, opens a column
where a cell has none yet, and widens the column of a cell that does not fit. Column by column that comes to
the largest width of a cell there, so neither the order of the rows matters nor how often one occurs.
-/

namespace IndentedText

theorem widen_comm (widths others : List Nat) : widen widths others = widen others widths := by
  induction widths generalizing others with
  | nil => simp
  | cons width widths ih =>
    cases others with
    | nil => simp
    | cons other others => rw [widen, widen, Nat.max_comm, ih]

theorem widen_assoc (first second third : List Nat) :
    widen (widen first second) third = widen first (widen second third) := by
  induction first generalizing second third with
  | nil => simp
  | cons width widths ih =>
    cases second with
    | nil => simp
    | cons other others =>
      cases third with
      | nil => simp
      | cons last lasts => simp only [widen, Nat.max_assoc, ih]

theorem getElem?_widen (widths others : List Nat) (j : Nat) :
    (widen widths others)[j]? = Option.merge max widths[j]? others[j]? := by
  induction widths generalizing others j with
  | nil => simp
  | cons width widths ih =>
    cases others with
    | nil => simp
    | cons other others =>
      cases j with
      | zero => rfl
      | succ j => exact ih others j

namespace Table

@[simp] theorem widths_nil : widths [] = [] := rfl

theorem widths_cons (row : Row) (table : Table) :
    widths (row :: table) = widen row.widths table.widths := by
  have start (table : Table) (first : List Nat) :
      table.foldl (fun widths row => widen widths row.widths) first = widen first table.widths := by
    induction table generalizing first with
    | nil => simp
    | cons row rest ih =>
      rw [widths, List.foldl_cons, List.foldl_cons, ih, ih, widen_nil_left, widen_assoc]
  rw [widths, List.foldl_cons, start, widen_nil_left]

/-- The cells of column `j`, one from each row that has so many. -/
def column (table : Table) (j : Nat) : List (Option String) :=
  table.filterMap fun row => row[j]?

theorem max?_cons_eq_merge (first : Nat) (rest : List Nat) :
    (first :: rest).max? = Option.merge max (some first) rest.max? := by
  rw [List.max?_cons]
  cases rest.max? <;> rfl

theorem getElem?_widths (table : Table) (j : Nat) :
    table.widths[j]? = ((table.column j).map cellWidth).max? := by
  induction table with
  | nil => rfl
  | cons row rest ih =>
    rw [widths_cons, getElem?_widen, ih, Row.widths, List.getElem?_map]
    cases here : row[j]? with
    | none => simp [column, here]
    | some cell =>
      have cells : column (row :: rest) j = cell :: column rest j := by simp [column, here]
      rw [cells, List.map_cons, max?_cons_eq_merge, Option.map_some]

theorem exists_widest {table : Table} {j : Nat} (inside : j < table.widths.length) :
    ∃ row ∈ table, ∃ cell, row[j]? = some cell ∧ cellWidth cell = table.widths.getD j 0 := by
  have widest := table.getElem?_widths j
  rw [List.getElem?_eq_getElem inside] at widest
  obtain ⟨cell, held, width⟩ := List.mem_map.1 (List.max?_mem widest.symm)
  obtain ⟨row, member, here⟩ := List.mem_filterMap.1 held
  exact ⟨row, member, cell, here, width.trans (List.getD_eq_getElem _ _ inside).symm⟩

theorem length_widths (table : Table) :
    table.widths.length = (table.map List.length).max?.getD 0 := by
  induction table with
  | nil => rfl
  | cons row rest ih =>
    rw [widths_cons, length_widen, Row.widths, List.length_map, ih, List.map_cons, max?_cons_eq_merge]
    cases (rest.map List.length).max? <;> simp

theorem widths_append (table other : Table) :
    widths (table ++ other) = widen table.widths other.widths := by
  induction table with
  | nil => simp
  | cons row rest ih => rw [List.cons_append, widths_cons, widths_cons, ih, widen_assoc]

theorem max?_congr {values others : List Nat} (same : ∀ value, value ∈ values ↔ value ∈ others) :
    values.max? = others.max? :=
  Option.ext fun most => by simp only [List.max?_eq_some_iff, same]

theorem widths_congr {table other : Table} (same : ∀ row, row ∈ table ↔ row ∈ other) :
    table.widths = other.widths := by
  refine List.ext_getElem? fun j => ?_
  rw [getElem?_widths, getElem?_widths]
  refine max?_congr fun width => ?_
  simp only [column, List.mem_map, List.mem_filterMap, same]

def noteCell (widths : List Nat) (j : Nat) (cell : Option String) : List Nat :=
  if widths.length ≤ j then widths ++ [cellWidth cell]
  else if widths.getD j 0 < cellWidth cell then widths.set j (cellWidth cell)
  else widths

def noteRow (widths : List Nat) (row : Row) : List Nat :=
  row.zipIdx.foldl (fun widths entry => noteCell widths entry.2 entry.1) widths

theorem noteCell_cons_succ (width : Nat) (widths : List Nat) (j : Nat) (cell : Option String) :
    noteCell (width :: widths) (j + 1) cell = width :: noteCell widths j cell := by
  simp only [noteCell, List.length_cons, Nat.add_le_add_iff_right, List.getD_cons_succ]
  split
  · rfl
  · split <;> rfl

/-- The next cell of a row finds a column if an earlier row had one, and opens the next one if none had. -/
theorem noteCell_widen (widths done : List Nat) (cell : Option String) :
    noteCell (widen widths done) done.length cell = widen widths (done ++ [cellWidth cell]) := by
  induction widths generalizing done with
  | nil => simp [noteCell]
  | cons width widths ih =>
    cases done with
    | nil =>
      rw [widen_nil_right, List.length_nil, List.nil_append, widen, widen_nil_right]
      obtain wider | fits := Nat.lt_or_ge width (cellWidth cell)
      · simp [noteCell, wider, Nat.max_eq_right (Nat.le_of_lt wider)]
      · simp [noteCell, Nat.not_lt.2 fits, Nat.max_eq_left fits]
    | cons first done => rw [widen, List.length_cons, noteCell_cons_succ, ih, List.cons_append, widen]

theorem noteRow_eq (widths : List Nat) (row : Row) : noteRow widths row = widen widths row.widths := by
  -- After its first cells the pass is where it would be if the row had only these.
  have pass (rest : Row) (done : List Nat) :
      (rest.zipIdx done.length).foldl (fun widths entry => noteCell widths entry.2 entry.1)
        (widen widths done) = widen widths (done ++ rest.widths) := by
    induction rest generalizing done with
    | nil => simp [Row.widths]
    | cons cell rest ih =>
      have next := ih (done ++ [cellWidth cell])
      rw [List.length_append, List.length_singleton, List.append_assoc] at next
      rw [List.zipIdx_cons, List.foldl_cons, noteCell_widen, next]
      rfl
  simpa [noteRow] using pass row []

theorem foldl_noteRow (table : Table) : table.foldl noteRow [] = table.widths := by
  rw [widths]
  congr 1
  funext widths row
  exact noteRow_eq widths row

/-- The pass over the cells of a table finds as many widths as its longest row has cells, and each is the
largest width of a cell in its column. So the widths of two tables put together are the larger ones where
both have them and those of the one that has more columns from there on, and tables with the same rows,
in any order and any number of times, have the same widths. -/
theorem widths_pointwise (table : Table) :
    table.foldl noteRow [] = table.widths ∧
    table.widths.length = (table.map List.length).max?.getD 0 ∧
    (∀ j : Nat, table.widths[j]? = ((table.column j).map cellWidth).max?) ∧
    (∀ (other : Table) (j : Nat), (widths (table ++ other))[j]? =
      Option.merge max table.widths[j]? other.widths[j]?) ∧
    ∀ other : Table, (∀ row, row ∈ table ↔ row ∈ other) → table.widths = other.widths := by
  refine ⟨table.foldl_noteRow, table.length_widths, table.getElem?_widths, fun other j => ?_,
    fun other => widths_congr⟩
  rw [widths_append, getElem?_widen]

theorem widths_pointwise_ragged :
    let table : Table := [[some "abc", none], [], [some "d", some "", some "ef"], [some "g"]]
    let other : Table := [[some "g"], [some "d", some "", some "ef"], [], [some "abc", none], [some "g"]]
    (∀ row, row ∈ table ↔ row ∈ other) ∧ table.widths = other.widths ∧ table.widths = [3, 0, 2] := by
  intro table other
  have forth : table ⊆ other := by decide
  have back : other ⊆ table := by decide
  have same : ∀ row, row ∈ table ↔ row ∈ other := fun row => ⟨fun here => forth here, fun there => back there⟩
  exact ⟨same, (widths_pointwise table).2.2.2.2 other same, by decide⟩

end Table

end IndentedText
