import NeuralPlan.Cell.Solve
import NeuralPlan.Plan

/-!
# Running a plan

A plan is run on an external input and the values that its neurons have.  The rows are solved
one after another: all cells of a row are solved on the values of the rows before, and only then
are their results committed.

## Main definitions

* `Plan.commit` — the results of a row written to the values.
* `Plan.run` — the output of a run.  It answers with the values in either case: a run that fails
  keeps what earlier rows have committed.
* `Plan.runOnce` — the output of a run on values that are all zero.
-/

set_option relaxedAutoImplicit false
set_option autoImplicit false

namespace NeuralPlan

/-- The values of the neurons, and which of them are committed in this run. -/
structure Values where
  values : Array Float
  committed : Array Bool

namespace Values

/-- Values that are all zero.  A signed word has to count their bytes. -/
def zeros (count : Nat) : Result (Array Float) :=
  if count * wordBytes < Word.signedLimit then .ok (Array.replicate count 0.0)
  else stop .overflow

/-- A neuron has its new value. -/
def commit (v : Values) (index : Nat) (value : Float) : Values where
  values := v.values.set! index value
  committed := v.committed.set! index true

end Values

namespace Plan

/-- The results of a cell written to the values of its neurons, up to the first neuron that
there is not. -/
def commit (v : Values) : List Run → List Float → Values × Result Unit
  | _, [] => (v, .ok ())
  | outputs, result :: results =>
    match Runs.next? outputs with
    | .error e => (v, .error e)
    | .ok none => (v, .ok ())
    | .ok (some (ref, outputs)) =>
      let index := Word.toUnsigned ref
      if index < v.committed.size then commit (v.commit index result) outputs results
      else (v, fail (.outOfRange .neuron index v.committed.size))

/-- The results of the cells of a row, written one cell after another. -/
def commitRow (v : Values) : List (Cell × Array Float) → Values × Result Unit
  | [] => (v, .ok ())
  | (cell, results) :: rest =>
    match commit v cell.outputs.toList results.toList with
    | (v, .error e) => (v, .error e)
    | (v, .ok ()) => commitRow v rest

/-- Every cell with its results, solved on the same values. -/
def solveRow (input : Array Float) (v : Values) (cells : Array Cell) :
    Result (List (Cell × Array Float)) :=
  cells.toList.mapM fun cell => do
    return (cell, ← cell.solve ⟨input, v.values, v.committed⟩)

/-- Runs one row. -/
def runRow (p : Plan) (input : Array Float) (v : Values) (row : Nat) : Values × Result Unit :=
  match p.row row >>= solveRow input v with
  | .error e => (v, .error e)
  | .ok solved => commitRow v solved

/-- Runs the rows of a list, up to the first that fails. -/
def runRows (p : Plan) (input : Array Float) : Values → List Nat → Values × Result Unit
  | v, [] => (v, .ok ())
  | v, row :: rows =>
    match p.runRow input v row with
    | (v, .error e) => (v, .error e)
    | (v, .ok ()) => runRows p input v rows

/-- Whether the columns of all rows are just the cells. -/
def isCovered (p : Plan) : Bool := Word.total p.cols.toList == p.cells.size

/-- Fails if the plan cannot be run on so many inputs and values. -/
def checkRun (p : Plan) (input values : Array Float) : Result Unit := do
  if input.size ≠ p.inputSize then fail (.lengthMismatch p.inputSize input.size)
  if values.size ≠ p.neuronCount then fail (.lengthMismatch p.neuronCount values.size)
  if !p.isCovered then fail (.inconsistent (.gridMismatch p.cols.toList p.cells.size))

/-- The values of the output neurons: the last ones, or all if there are fewer. -/
def outputOf (p : Plan) (values : Array Float) : Array Float :=
  values.extract (p.neuronCount - p.outputNeurons) values.size

/-- The output of a run, after all rows are committed. -/
def outputOfRun (p : Plan) (v : Values) : Result (Array Float) :=
  match v.committed.toList.findIdx? (! ·) with
  | some index => fail (.inconsistent (.unsolved index))
  | none => .ok (p.outputOf v.values)

/-- Runs the plan on an input and the values of its neurons. -/
def run (p : Plan) (input values : Array Float) : Array Float × Result (Array Float) :=
  match p.checkRun input values with
  | .error e => (values, .error e)
  | .ok () =>
    match p.runRows input ⟨values, Array.replicate p.neuronCount false⟩ (List.range p.rows) with
    | (v, .error e) => (v.values, .error e)
    | (v, .ok ()) => (v.values, p.outputOfRun v)

/-- Runs the plan on an input and values that are all zero. -/
def runOnce (p : Plan) (input : Array Float) : Result (Array Float) := do
  let zeros ← Values.zeros p.neuronCount
  (p.run input zeros).2

end Plan

end NeuralPlan
