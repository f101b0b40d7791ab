import NeuralPlan.Frontier.Collect
import NeuralPlan.Draft
import NeuralPlan.Plan

/-!
# Compiling a net into a plan

Each row of a plan holds the neurons of one collection, packed into as few cells as a greedy
left-to-right packing gives, none of which outgrows its share of the memory.

## Main definitions

* `PlanSettings` — the threads and the memory of a plan.
* `Packing`, `packRow` — the packing of one row.
* `Plan.compile` — the plan of a net.
-/

set_option relaxedAutoImplicit false
set_option autoImplicit false

namespace NeuralPlan

/-- What a plan is made for.  The memory is that of a whole row; a cell may use the share of
one thread. -/
structure PlanSettings where
  threads : Option Nat
  bytes : Option Nat

namespace PlanSettings

/-- The memory of a row where none is given, 2048 megabytes. -/
def defaultBytes : Nat := 2048 * 1024 * 1024

/-- The settings that are required and not given. -/
def missing (s : PlanSettings) : List Setting :=
  if s.threads.isNone then [.maxSolveThreads] else []

end PlanSettings

/-! ## Rows -/

/-- A row under construction: the frontier, the cell that is being filled, and the cells and
neurons of the row so far. -/
structure Packing where
  frontier : Frontier
  draft : Draft
  columns : Array Cell
  committed : Array Nat

namespace Packing

/-- The packing with its cell closed and a new one begun. -/
def close (p : Packing) : Packing :=
  { p with columns := p.columns.push p.draft.cell, draft := .start p.draft.net p.draft.available }

/-- The packing with its cell closed, if the cell holds neurons that another one would not fit
with, though it could be read. -/
def closeIfFull (p : Packing) (index cellBudget : Nat) : Result Packing := do
  if p.draft.cell.isEmpty then return p
  if !(← p.draft.canResolve index) then return p
  if ← p.draft.fits index cellBudget then return p
  return p.close

/-- The packing after the first neuron of the subset is left for a later row. -/
def leave (p : Packing) (index : Nat) : Result Packing :=
  match p.frontier.confirmOmitted index with
  | (_, .error e) => .error e
  | (frontier, .ok ()) => .ok { p with frontier }

/-- The packing after the first neuron of the subset is taken into the cell. -/
def take (p : Packing) (index : Nat) : Result Packing :=
  match p.draft.add index with
  | (_, .error e) => .error e
  | (draft, .ok ()) =>
    match p.frontier.confirmProcessed index with
    | (_, .error e) => .error e
    | (frontier, .ok ()) => .ok { p with frontier, draft, committed := p.committed.push index }

/-- The packing after one more neuron of the subset. -/
def step (p : Packing) (index cellBudget : Nat) : Result Packing := do
  let p ← p.closeIfFull index cellBudget
  if !(← p.draft.canResolve index) then return ← p.leave index
  if ← p.draft.fits index cellBudget then return ← p.take index
  let cost ← p.draft.costAt index
  fail (.exhausted (Cell.emptyBytes + cost) cellBudget)

/-- The cells of the row, the last one included. -/
def cells (p : Packing) : Array Cell :=
  if p.draft.cell.isEmpty then p.columns else p.columns.push p.draft.cell

end Packing

/-- Packs the subset of the frontier into cells. -/
def packRow (net : Net) (frontier : Frontier) (available : Array Bool) (cellBudget : Nat) :
    Result Packing :=
  frontier.subset.foldlM (fun p index => p.step index cellBudget)
    ⟨frontier, .start net available, #[], #[]⟩

/-! ## Plans -/

namespace Plan

/-- What is collected for the next row: neurons that can be solved at once, or, if there are
none, neurons that can be solved one after another. -/
def collectRow (f : Frontier) (threads bytes : Nat) : Result (Frontier × List Nat) :=
  match f.collect ⟨threads, bytes, true⟩ with
  | (_, .error e) => .error e
  | (f, .ok (index :: rest)) => .ok (f, index :: rest)
  | (f, .ok []) =>
    match f.collect ⟨threads, bytes, false⟩ with
    | (_, .error e) => .error e
    | (f, .ok subset) => .ok (f, subset)

/-- How many neurons are not yet committed. -/
def uncommitted (available : Array Bool) : Nat := (available.toList.filter (! ·)).length

/-- The rows of the plan from the frontier on, added to those made so far. -/
def compileRows (net : Net) (threads bytes : Nat) (f : Frontier) (available : Array Bool)
    (made : Plan) : Result Plan := do
  if f.finished then return made
  let (collected, subset) ← collectRow f threads bytes
  if subset.isEmpty then
    fail (.inconsistent (.stalled collected.iteration (uncommitted available)))
  let row ← packRow net collected available (bytes / threads)
  let next := row.frontier
  if next.neuronCount - next.processed < f.neuronCount - f.processed then
    compileRows net threads bytes next
      (row.committed.foldl (fun available index => available.set! index true) available)
      { made with
        cols := made.cols.push row.cells.size
        cells := made.cells ++ row.cells }
  else stop .endless
termination_by f.neuronCount - f.processed

/-- The plan of a net. -/
def compile (s : PlanSettings) (net : Net) : Result Plan := do
  match s.threads with
  | none => fail (.missing s.missing)
  | some 0 => fail (.invalidState .noThreads)
  | some threads =>
    let bytes := s.bytes.getD PlanSettings.defaultBytes
    let frontier ← Frontier.ofNet net
    compileRows net threads bytes frontier (Array.replicate net.neuronCount false) {
      cells := #[]
      cols := #[]
      neuronCount := net.neuronCount
      outputNeurons := net.outputNeurons
      inputSize := net.inputSize }

end Plan

end NeuralPlan
