import Mathlib.Algebra.GroupWithZero.Nat
import Mathlib.Data.List.GetD
import Mathlib.Data.List.Perm.Basic
import IndentedText.Proofs.Widths

/-!
Aligned rows. Every cell stands in a column that is wide enough for it, at an offset that is the same in
all rows, and can be cut out of its row again. How a row is aligned hangs on the other rows only through
the widths of the columns, and these do not hang on the order of the rows.
-/

namespace IndentedText

theorem widen_take (widths : List Nat) (m n : Nat) :
    widen (widths.take m) (widths.take n) = widths.take (max m n) := by
  induction widths generalizing m n with
  | nil => simp
  | cons width widths ih =>
    cases m with
    | zero => simp
    | succ m =>
      cases n with
      | zero => simp
      | succ n => simp [widen, ih, Nat.succ_max_succ]

namespace Table

/-- Every cell of the row has a column, which is wide enough for it. -/
inductive Fits : List Nat → Row → Prop where
  | nil (widths : List Nat) : Fits widths []
  | cons {width : Nat} {widths : List Nat} {cell : Option String} {row : Row}
      (wide : cellWidth cell ≤ width) (rest : Fits widths row) : Fits (width :: widths) (cell :: row)

theorem fits_own (row : Row) : Fits row.widths row := by
  induction row with
  | nil => exact .nil _
  | cons cell row ih => exact .cons (Nat.le_refl _) ih

theorem Fits.widen {widths : List Nat} {row : Row} (fits : Fits widths row) (others : List Nat) :
    Fits (widen widths others) row := by
  induction fits generalizing others with
  | nil widths => exact .nil _
  | cons wide rest ih =>
    cases others with
    | nil => exact .cons wide rest
    | cons other others => exact .cons (Nat.le_trans wide (Nat.le_max_left ..)) (ih others)

theorem fits_widths {table : Table} {row : Row} (member : row ∈ table) : Fits table.widths row := by
  induction table with
  | nil => cases member
  | cons first rest ih =>
    rw [widths_cons]
    obtain rfl | member := List.mem_cons.1 member
    · exact (fits_own row).widen _
    · rw [widen_comm]
      exact (ih member).widen _

theorem Fits.length_le {widths : List Nat} {row : Row} (fits : Fits widths row) :
    row.length ≤ widths.length := by
  induction fits with
  | nil widths => exact Nat.zero_le _
  | cons _ _ ih => exact Nat.succ_le_succ ih

/-- What stands in column `j` of an aligned row. The column begins where the ones before it end. -/
def slice (widths : List Nat) (j : Nat) (text : String) : String :=
  String.ofList ((text.toList.drop (widths.take j).sum).take (widths.getD j 0))

theorem length_pad {width : Nat} {cell : Option String} (wide : cellWidth cell ≤ width) :
    (pad width cell).length = width := by
  rw [pad, String.length_append, String.length_ofList, List.length_replicate]
  exact Nat.add_sub_cancel' wide

@[simp] theorem alignRow_cons (width : Nat) (widths : List Nat) (cell : Option String) (row : Row) :
    alignRow (width :: widths) (cell :: row) = pad width cell ++ alignRow widths row := by
  simp [alignRow]

section Slice

variable {first : String} {width : Nat} (long : first.length = width) (widths : List Nat)
  (rest : String)
include long

theorem slice_zero_append : slice (width :: widths) 0 (first ++ rest) = first := by
  simp only [slice, List.take_zero, List.sum_nil, List.drop_zero, List.getD_cons_zero,
    String.toList_append]
  rw [← long, ← String.length_toList, List.take_left, String.ofList_toList]

theorem slice_succ_append (j : Nat) :
    slice (width :: widths) (j + 1) (first ++ rest) = slice widths j rest := by
  simp only [slice, List.take_succ_cons, List.sum_cons, List.getD_cons_succ, String.toList_append]
  rw [← long, ← String.length_toList, List.drop_length_add_append]

end Slice

section Fits

variable {widths : List Nat} {row : Row} (fits : Fits widths row)
include fits

theorem Fits.length_alignRow : (alignRow widths row).length = (widths.take row.length).sum := by
  induction fits with
  | nil widths => simp [alignRow]
  | cons wide rest ih => simp [length_pad wide, ih]

theorem Fits.cellWidth_le {j : Nat} {cell : Option String} (here : row[j]? = some cell) :
    cellWidth cell ≤ widths.getD j 0 := by
  induction fits generalizing j with
  | nil widths => simp at here
  | cons wide rest ih =>
    cases j with
    | zero =>
      cases here
      exact wide
    | succ j => exact ih here

theorem Fits.slice_alignRow {j : Nat} {cell : Option String} (here : row[j]? = some cell) :
    slice widths j (alignRow widths row) = pad (widths.getD j 0) cell := by
  induction fits generalizing j with
  | nil widths => simp at here
  | cons wide rest ih =>
    rw [alignRow_cons]
    cases j with
    | zero =>
      cases here
      exact slice_zero_append (length_pad wide) _ _
    | succ j =>
      rw [slice_succ_append (length_pad wide)]
      exact ih here

end Fits

/-- The cells that a row was aligned from, cut out of its text. Each is as wide as its column. -/
def recut (widths : List Nat) (row : Row) (text : String) : Row :=
  (List.range row.length).map fun j => some (slice widths j text)

theorem Fits.recut_cons {width : Nat} {cell : Option String} (wide : cellWidth cell ≤ width)
    (widths : List Nat) (row : Row) :
    recut (width :: widths) (cell :: row) (alignRow (width :: widths) (cell :: row)) =
      some (pad width cell) :: recut widths row (alignRow widths row) := by
  rw [alignRow_cons, recut, List.length_cons, List.range_succ_eq_map, List.map_cons, List.map_map,
    slice_zero_append (length_pad wide)]
  congr 1
  exact List.map_congr_left fun j _ => congrArg some (slice_succ_append (length_pad wide) widths _ j)

theorem pad_pad {width : Nat} {cell : Option String} (wide : cellWidth cell ≤ width) :
    pad width (some (pad width cell)) = pad width cell := by
  have long : cellWidth (some (pad width cell)) = width := length_pad wide
  rw [pad, long, Nat.sub_self]
  exact String.append_empty

section Recut

variable {widths : List Nat} {row : Row} (fits : Fits widths row)
include fits

theorem Fits.widths_recut : (recut widths row (alignRow widths row)).widths = widths.take row.length := by
  induction fits with
  | nil widths => simp [recut, Row.widths]
  | cons wide rest ih =>
    rw [recut_cons wide, Row.widths, List.map_cons, List.length_cons, List.take_succ_cons, ← ih]
    exact congrArg (· :: _) (length_pad wide)

theorem Fits.alignRow_recut :
    alignRow widths (recut widths row (alignRow widths row)) = alignRow widths row := by
  induction fits with
  | nil widths => simp [recut]
  | cons wide rest ih => rw [recut_cons wide, alignRow_cons, alignRow_cons, pad_pad wide, ih]

end Recut

theorem widths_map_recut {widths : List Nat} {table : Table} (fits : ∀ row ∈ table, Fits widths row) :
    Table.widths (table.map fun row => recut widths row (alignRow widths row)) =
      widths.take table.widths.length := by
  induction table with
  | nil => simp
  | cons row rest ih =>
    rw [List.map_cons, widths_cons, widths_cons, (fits row (by simp)).widths_recut,
      ih fun other member => fits other (by simp [member]), widen_take, length_widen, Row.widths,
      List.length_map]

theorem align_recut (table : Table) :
    Table.align (List.zipWith (recut table.widths) table table.align) = table.align := by
  have rows : List.zipWith (recut table.widths) table table.align =
      table.map fun row => recut table.widths row (alignRow table.widths row) := by
    rw [align, List.zipWith_map_right, List.zipWith_self]
  rw [rows, align, widths_map_recut fun row => fits_widths, List.take_length, List.map_map, align]
  exact List.map_congr_left fun row member => (fits_widths member).alignRow_recut

theorem align_reorder (table : Table) {order : List Nat} (all : order.Perm (List.range table.length)) :
    Table.align (order.map fun i => table.getD i []) = order.map fun i => table.align.getD i "" := by
  have rows : (List.range table.length).map (fun i => table.getD i []) = table := by
    refine List.ext_getElem (by simp) fun i _ inside => ?_
    simp [List.getD_eq_getElem?_getD, List.getElem?_eq_getElem inside]
  have widths : Table.widths (order.map fun i => table.getD i []) = table.widths := by
    rw [widths_congr fun row => (all.map _).mem_iff, rows]
  have empty : alignRow table.widths [] = "" := by simp [alignRow]
  rw [align, widths, List.map_map]
  refine List.map_congr_left fun i _ => ?_
  rw [align, ← empty, List.getD_map]
  rfl

/-- Every cell has a column, and the text of a row is cut into its cells by the widths of the columns: each
is the text of the cell with spaces behind it, as wide as the column, at an offset that is the same in all
rows. So rows with equally many cells are equally long. The other rows have a say only in the widths, rows
in another order are aligned to the same texts in that order, and the padded cells are aligned already. -/
theorem align_columns (table : Table) :
    let widths := table.widths
    (∀ row ∈ table, row.length ≤ widths.length) ∧
    table.align.length = table.length ∧
    (∀ (i : Nat) (row : Row), table[i]? = some row → ∃ text, table.align[i]? = some text ∧
      text.length = (widths.take row.length).sum ∧
      (∀ j cell, row[j]? = some cell → (slice widths j text).length = widths.getD j 0 ∧
        ∃ n, slice widths j text = cellText cell ++ String.ofList (List.replicate n ' ')) ∧
      (∀ (k : Nat) (other : Row), table[k]? = some other → other.length = row.length →
        ∃ equal, table.align[k]? = some equal ∧ equal.length = text.length) ∧
      ∀ (another : Table) (k : Nat), another.widths = widths → another[k]? = some row →
        another.align[k]? = some text) ∧
    (∀ order : List Nat, order.Perm (List.range table.length) →
      Table.align (order.map fun i => table.getD i []) = order.map fun i => table.align.getD i "") ∧
    Table.align (List.zipWith (recut widths) table table.align) = table.align := by
  intro widths
  have aligned {another : Table} {k : Nat} {row : Row} (same : another.widths = widths)
      (here : another[k]? = some row) : another.align[k]? = some (alignRow widths row) := by
    rw [align, List.getElem?_map, here, same]
    rfl
  refine ⟨fun row => length_le_length_widths, List.length_map .., fun i row here => ?_,
    fun order => table.align_reorder, table.align_recut⟩
  have fits : Fits widths row := fits_widths (List.mem_of_getElem? here)
  refine ⟨alignRow widths row, aligned rfl here, fits.length_alignRow, fun j cell held => ?_,
    fun k other there equal => ?_, fun another k same there => aligned same there⟩
  · rw [fits.slice_alignRow held]
    exact ⟨length_pad (fits.cellWidth_le held), _, rfl⟩
  · have also : Fits widths other := fits_widths (List.mem_of_getElem? there)
    refine ⟨_, aligned rfl there, ?_⟩
    rw [also.length_alignRow, fits.length_alignRow, equal]

theorem align_columns_ragged :
    let row : Row := [some "a", none]
    let table : Table := [row, [], [some "bc", some "", some "d"], [none, none]]
    let another : Table := [[none, none, some "e"], [some "fg"], row]
    let order := [3, 2, 0, 1]
    row ∈ table ∧ table[0]? = some row ∧ row[0]? = some (some "a") ∧
      table[3]? = some [none, none] ∧ another.widths = table.widths ∧ another[2]? = some row ∧
      order.Perm (List.range table.length) ∧
      row.length ≤ table.widths.length ∧
      (∃ text, table.align[0]? = some text ∧ text.length = 2 ∧
        (∃ n, slice table.widths 0 text = "a" ++ String.ofList (List.replicate n ' ')) ∧
        (∃ equal, table.align[3]? = some equal ∧ equal.length = text.length) ∧
        another.align[2]? = some text) ∧
      Table.align (order.map fun i => table.getD i []) = order.map fun i => table.align.getD i "" := by
  intro row table another order
  have member : row ∈ table := List.mem_cons_self
  have widths : another.widths = table.widths := by decide
  have all : order.Perm (List.range table.length) := by decide
  obtain ⟨columns, -, rows, orders, -⟩ := align_columns table
  obtain ⟨text, here, length, cells, equal, alike⟩ := rows 0 row rfl
  exact ⟨member, rfl, rfl, rfl, widths, rfl, all, columns row member,
    ⟨text, here, length, (cells 0 _ rfl).2, equal 3 _ rfl rfl, alike another 2 widths rfl⟩,
    orders order all⟩

end Table

end IndentedText
