/-
`Eina_Matrixsparse`: a list of rows, each with a list of cells.

The operations of `eina_matrixsparse.c` on top of the two kinds of lists.  The data of a cell
may be `NULL`, which is `none`.  The callback that frees data is left out.
-/
import Efl.Eina.Matrixsparse.Track

namespace Eina.Matrixsparse

/-- `Eina_Matrixsparse_Cell` -/
structure Cell (α : Type) where
  col : Nat
  data : Option α
  deriving DecidableEq

/-- `Eina_Matrixsparse_Row` -/
structure Row (α : Type) where
  row : Nat
  cells : Track (Cell α)
  deriving DecidableEq

/-- `Eina_Matrixsparse` -/
structure Matrix (α : Type) where
  rows : Track (Row α)
  sizeRows : Nat
  sizeCols : Nat
  deriving DecidableEq

variable {α : Type}

namespace Matrix

/-- `eina_matrixsparse_new` -/
def new (rows cols : Nat) : Option (Matrix α) :=
  if rows = 0 ∨ cols = 0 then none else some ⟨Track.empty, rows, cols⟩

/-- The row a pointer points to. -/
def rowAt (m : Matrix α) (row : Nat) : Outcome (Row α) :=
  match m.rows.items.find? (fun r => decide (r.row = row)) with
  | none => .undefined
  | some r => .returns r

/-- The row with other cells. -/
def setCells (m : Matrix α) (row : Nat) (cells : Track (Cell α)) : Matrix α :=
  { m with rows := { m.rows with
      items := m.rows.items.map fun r => if r.row = row then { r with cells := cells } else r } }

/-! ### Rows and cells -/

/-- `_eina_matrixsparse_row_idx_get` -/
def rowIdxGet (m : Matrix α) (row : Nat) : Outcome (Bool × Matrix α) := do
  let (found, rows) ← m.rows.idxGet Row.row row
  return (found, { m with rows := rows })

/-- `_eina_matrixsparse_row_cell_idx_get` -/
def rowCellIdxGet (m : Matrix α) (row col : Nat) : Outcome (Bool × Matrix α) := do
  let r ← m.rowAt row
  let (found, cells) ← r.cells.idxGet Cell.col col
  return (found, m.setCells row cells)

/-- `_eina_matrixsparse_cell_idx_get` -/
def cellIdxFind (m : Matrix α) (row col : Nat) : Outcome (Bool × Matrix α) := do
  let (found, m) ← m.rowIdxGet row
  if found then m.rowCellIdxGet row col else return (false, m)

/-- `_eina_matrixsparse_row_idx_add` -/
def rowIdxAdd (m : Matrix α) (row : Nat) : Outcome (Matrix α) := do
  let rows ← m.rows.idxAdd Row.row ⟨row, Track.empty⟩
  return { m with rows := rows }

/-- `_eina_matrixsparse_row_cell_idx_add` -/
def rowCellIdxAdd (m : Matrix α) (row col : Nat) (data : Option α) : Outcome (Matrix α) := do
  let r ← m.rowAt row
  let cells ← r.cells.idxAdd Cell.col ⟨col, data⟩
  return m.setCells row cells

/-- `_eina_matrixsparse_cell_idx_add` -/
def cellIdxAdd (m : Matrix α) (row col : Nat) (data : Option α) : Outcome (Matrix α) := do
  let (found, m) ← m.rowIdxGet row
  let m ← (if found then .returns m else m.rowIdxAdd row)
  m.rowCellIdxAdd row col data

/-- `_eina_matrixsparse_row_unlink`; the row is freed. -/
def rowUnlink (m : Matrix α) (row : Nat) : Outcome (Matrix α) := do
  let rows ← m.rows.unlink Row.row row
  return { m with rows := rows }

/-- `_eina_matrixsparse_cell_unlink`; the cell is freed. -/
def cellUnlink (m : Matrix α) (row col : Nat) : Outcome (Matrix α) := do
  let r ← m.rowAt row
  let cells ← r.cells.unlink Cell.col col
  return m.setCells row cells

/-! ### Data -/

/-- `cell->data` -/
def cellData (m : Matrix α) (row col : Nat) : Outcome (Option α) := do
  let r ← m.rowAt row
  match r.cells.items.find? (fun c => decide (c.col = col)) with
  | none => .undefined
  | some c => return c.data

/-- The assignment to `cell->data`. -/
def setCellData (m : Matrix α) (row col : Nat) (data : Option α) : Outcome (Matrix α) := do
  let r ← m.rowAt row
  return m.setCells row { r.cells with
    items := r.cells.items.map fun c => if c.col = col then { c with data := data } else c }

/-- `eina_matrixsparse_data_idx_replace`: the answer and the data that was there. -/
def dataIdxReplace (m : Matrix α) (row col : Nat) (data : Option α) :
    Outcome (Matrix α × Bool × Option α) :=
  if ¬row < m.sizeRows then .returns (m, false, none)
  else if ¬col < m.sizeCols then .returns (m, false, none)
  else do
    let (found, m) ← m.cellIdxFind row col
    if found then
      let old ← m.cellData row col
      return (← m.setCellData row col data, true, old)
    else return (← m.cellIdxAdd row col data, true, none)

/-- `eina_matrixsparse_data_idx_set` -/
def dataIdxSet (m : Matrix α) (row col : Nat) (data : Option α) : Outcome (Matrix α × Bool) :=
  if ¬row < m.sizeRows then .returns (m, false)
  else if ¬col < m.sizeCols then .returns (m, false)
  else do
    let (found, m) ← m.cellIdxFind row col
    if found then return (← m.setCellData row col data, true)
    else return (← m.cellIdxAdd row col data, true)

/-- `eina_matrixsparse_cell_idx_get`: the answer, and whether `*cell` is a cell. -/
def cellIdxGet (m : Matrix α) (row col : Nat) : Outcome (Matrix α × Bool × Bool) :=
  if ¬row < m.sizeRows then .returns (m, false, false)
  else if ¬col < m.sizeCols then .returns (m, false, false)
  else do
    let (found, m) ← m.cellIdxFind row col
    return (m, true, found)

/-- `eina_matrixsparse_data_idx_get` -/
def dataIdxGet (m : Matrix α) (row col : Nat) : Outcome (Matrix α × Option α) := do
  let (found, m) ← m.cellIdxFind row col
  if found then return (m, ← m.cellData row col) else return (m, none)

/-! ### Clearing -/

/-- `eina_matrixsparse_row_idx_clear` -/
def rowIdxClear (m : Matrix α) (row : Nat) : Outcome (Matrix α × Bool) :=
  if ¬row < m.sizeRows then .returns (m, false)
  else do
    let (found, m) ← m.rowIdxGet row
    if found then return (← m.rowUnlink row, true) else return (m, true)

/-- What `eina_matrixsparse_column_idx_clear` does with one row. -/
def columnClearIn (col : Nat) (m : Matrix α) (row : Nat) : Outcome (Matrix α) := do
  let (found, m) ← m.rowCellIdxGet row col
  if found then
    let r ← m.rowAt row
    if r.cells.items.head?.map Cell.col ≠ some col ∨ r.cells.last ≠ some col then
      m.cellUnlink row col
    else m.rowUnlink row
  else return m

/-- `eina_matrixsparse_column_idx_clear` -/
def columnIdxClear (m : Matrix α) (col : Nat) : Outcome (Matrix α × Bool) :=
  if ¬col < m.sizeCols then .returns (m, false)
  else do
    let m ← (m.rows.items.map Row.row).foldlM (columnClearIn col) m
    return (m, true)

/-- `eina_matrixsparse_cell_idx_clear` -/
def cellIdxClear (m : Matrix α) (row col : Nat) : Outcome (Matrix α × Bool) :=
  if ¬row < m.sizeRows then .returns (m, false)
  else if ¬col < m.sizeCols then .returns (m, false)
  else do
    let (found, m) ← m.cellIdxFind row col
    if found then return (← m.cellUnlink row col, true) else return (m, true)

/-! ### The size -/

/-- What the column loop of `eina_matrixsparse_size_set` leaves of the cells of a row. -/
def shrinkCells (cols : Nat) (cells : Track (Cell α)) : Option (Track (Cell α)) :=
  let update := cells.lastUsed.any fun used => decide (cols ≤ used)
  let cells := cells.truncate Cell.col cols
  if cells.items = [] then none
  else some (if update then { cells with lastUsed := cells.last } else cells)

/--
The column loop over the rows that are left, behind the rows `before`: a row without cells
is unlinked and freed.  Only where `update` is set is `last_used` moved away from it.
-/
def shrinkRows (cols : Nat) (update : Bool) :
    List (Row α) → Option Nat → Option Nat → List (Row α) → Track (Row α)
  | before, last, lastUsed, [] => ⟨before, last, lastUsed⟩
  | before, last, lastUsed, r :: rest =>
    match shrinkCells cols r.cells with
    | some cells => shrinkRows cols update
      (before ++ [{ r with cells := cells }]) last lastUsed rest
    | none =>
      shrinkRows cols update before
        (if rest = [] then before.getLast?.map Row.row else last)
        (if update ∧ lastUsed = some r.row then rest.head?.map Row.row else lastUsed)
        rest

/--
The last repair of `last_used`.  Where rows are left, the number of the row it points to is read;
that row may have been freed.
-/
def repairLastUsed (t : Track (Row α)) : Outcome (Track (Row α)) :=
  match t.lastUsed with
  | none => .returns t
  | some used =>
    match t.last with
    | none => .returns { t with lastUsed := t.last }
    | some last =>
      if used ∉ t.items.map Row.row then .undefined
      else .returns (if last < used then { t with lastUsed := t.last } else t)

/-- `eina_matrixsparse_size_set` -/
def sizeSet (m : Matrix α) (rows cols : Nat) : Outcome (Matrix α × Bool) :=
  if rows = 0 ∨ cols = 0 then .returns (m, false)
  else if rows = m.sizeRows ∧ cols = m.sizeCols then .returns (m, true)
  else
    let update := m.rows.lastUsed.any fun used => decide (rows ≤ used)
    let t := m.rows.truncate Row.row rows
    let lastUsed := if update then t.last else t.lastUsed
    do
      let t ← repairLastUsed (shrinkRows cols update [] t.last lastUsed t.items)
      return (⟨t, rows, cols⟩, true)

end Matrix

end Eina.Matrixsparse
