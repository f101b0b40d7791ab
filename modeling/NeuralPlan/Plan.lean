import NeuralPlan.Cell

/-!
# Plans

A plan is a grid of cells.  Its rows are solved one after another; the columns of a row are
independent of each other.  A plan may come from outside, so its column numbers need not fit
its cells.

## Main definitions

* `Plan` — the cells in row order, and how many columns each row has.
* `Plan.colsAt`, `Plan.row`, `Plan.cellAt` — addressing.
* `Plan.sizeBytes` — its size in memory.
-/

set_option relaxedAutoImplicit false
set_option autoImplicit false

namespace NeuralPlan

/-- A grid of cells. -/
structure Plan where
  /-- The cells, row after row. -/
  cells : Array Cell
  /-- The number of columns of each row. -/
  cols : Array Nat
  neuronCount : Nat
  outputNeurons : Nat
  inputSize : Nat
deriving Inhabited

namespace Plan

/-- The number of rows. -/
def rows (p : Plan) : Nat := p.cols.size

/-- The number of columns of a row. -/
def colsAt (p : Plan) (row : Nat) : Result Nat :=
  if h : row < p.cols.size then .ok p.cols[row]
  else fail (.outOfRange .row row p.cols.size)

/-- The number of cells in the rows before `row`. -/
def cellsBefore (p : Plan) (row : Nat) : Nat := Word.total (p.cols.toList.take row)

/-- The cells of a row, in column order. -/
def row (p : Plan) (row : Nat) : Result (Array Cell) := do
  let cols ← p.colsAt row
  let first := p.cellsBefore row
  if Word.limit ≤ first then fail (.outOfRange .cell Word.greatest p.cells.size)
  if Word.limit ≤ first + cols then fail (.outOfRange .cell first p.cells.size)
  if p.cells.size < first + cols then fail (.outOfRange .cell (first + cols - 1) p.cells.size)
  return p.cells.extract first (first + cols)

/-- The cell in a row and a column. -/
def cellAt (p : Plan) (row col : Nat) : Result Cell := do
  let cells ← p.row row
  if h : col < cells.size then return cells[col]
  else fail (.outOfRange .column col cells.size)

/-- The bytes of a plan without its tables. -/
def emptyBytes : Nat := 72

/-- The bytes of a plan with its tables. -/
def sizeBytes (p : Plan) : Nat :=
  emptyBytes + p.cols.size * wordBytes + Word.total (p.cells.toList.map Cell.sizeBytes)

end Plan

end NeuralPlan
