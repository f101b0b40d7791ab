import Std.Data.HashMap
import NeuralPlan.Cell

/-!
# Cells under construction

A draft takes neurons of a net into a cell, one by one.  Each input of a neuron is read from an
earlier local position, if the neuron that it names is in the cell, and otherwise from a slot;
an external input or a committed neuron gets a slot when it is first read, and keeps it.

## Main definitions

* `Draft` — the cell, and where neurons and slots stand in it.
* `Draft.examine` — the checks before a neuron is taken in, with the weights that it brings.
* `Draft.add` — takes a neuron in.  It answers with the draft in either case.
* `Draft.canResolve`, `Draft.fits` — whether a neuron can be read, and held, by the cell.
-/

set_option relaxedAutoImplicit false
set_option autoImplicit false

namespace NeuralPlan

/-- A cell under construction.  `available` tells of each neuron whether it is committed before
the cell is solved, `positions` where a neuron stands in the cell, and `slotOf` which slot holds
a reference. -/
structure Draft where
  net : Net
  available : Array Bool
  cell : Cell
  positions : Std.HashMap Nat Nat
  slotOf : Std.HashMap Int Nat

/-- A neuron that passed the checks, with its weights in order, its bias and its memory
filter. -/
structure Examined where
  neuron : Neuron
  weights : Array Float
  bias : Float
  memoryFilter : Float

namespace Draft

/-- A draft without neurons. -/
def start (net : Net) (available : Array Bool) : Draft where
  net := net
  available := available
  cell := .empty
  positions := ∅
  slotOf := ∅

/-! ## Queries -/

/-- Whether the neuron is in the cell. -/
def contains (d : Draft) (index : Nat) : Bool := d.positions.contains index

/-- Whether the neuron is committed before the cell is solved. -/
def isAvailable (d : Draft) (index : Nat) : Bool := d.available[index]?.getD false

/-- Whether the cell can read the neuron. -/
def canRead (d : Draft) (index : Nat) : Bool := d.contains index || d.isAvailable index

/-- The bytes by which the cell may grow when it takes the neuron in. -/
def costAt (d : Draft) (index : Nat) : Result Nat := do
  (← d.net.neuron index).cost

/-- Whether the cell stays within the budget when it takes the neuron in. -/
def fits (d : Draft) (index budget : Nat) : Result Bool := do
  let required ← Word.unsigned (d.cell.sizeBytes + (← d.costAt index))
  return decide (required ≤ budget)

/-- Whether the cell can read every neuron input of the neuron. -/
def canResolve (d : Draft) (index : Nat) : Result Bool := do
  let n ← d.net.neuron index
  Runs.allM (fun ref => Ref.isInput ref || d.canRead ref.toNat) n.inputs.toList

/-! ## Checks -/

/-- Fails unless the cell can read what the reference of the neuron `index` names. -/
def checkReference (d : Draft) (index : Nat) (ref : Int) : Result Unit :=
  if Ref.isInput ref then do
    checkIndex .input (← Ref.toInput ref) d.net.inputSize
  else do
    checkIndex .neuron ref.toNat d.net.neuronCount
    if d.canRead ref.toNat then return () else fail (.inconsistent (.unresolved ref.toNat index))

/-- The weights at the positions that the runs go through. -/
def collectWeights (net : Net) (runs : List Run) : Result (Array Float) :=
  Runs.foldlM (fun weights position => do
    return weights.push (← net.weight (Word.toUnsigned position))) #[] runs

/-- Checks all that the neuron at `index` refers to, before the cell is touched. -/
def examine (d : Draft) (index : Nat) : Result Examined := do
  let n ← d.net.neuron index
  if d.contains index then fail (.invalidState (.alreadyPlaced index))
  let bias ← d.net.weightAs .biasWeight n.bias
  let memoryFilter ← d.net.weightAs .memoryFilterWeight n.memoryFilter
  let weights ← collectWeights d.net n.weights.toList
  let inputs ← n.inputCount
  if weights.size ≠ inputs then
    fail (.inconsistent (.weightCount index inputs weights.size))
  Runs.foldlM (fun _ ref => d.checkReference index ref) () n.inputs.toList
  return ⟨n, weights, bias, memoryFilter⟩

/-! ## Taking a neuron in -/

/-- The draft after the weights, the bias and the memory filter of a neuron are copied. -/
def copyWeights (d : Draft) (n : Examined) : Draft :=
  let c := d.cell
  let first := c.weights.size
  let count := n.weights.size
  { d with cell := { c with
      weights := ((c.weights ++ n.weights).push n.bias).push n.memoryFilter
      weightRuns := if count = 0 then c.weightRuns else c.weightRuns.push ⟨first, count⟩
      weightRunCounts := c.weightRunCounts.push (if count = 0 then 0 else 1)
      biases := c.biases.push (first + count)
      memoryFilters := c.memoryFilters.push (first + count + 1) } }

/-- The local position that a reference names, if its neuron is in the cell. -/
def position? (d : Draft) (ref : Int) : Option Nat :=
  if Ref.isInput ref then none else d.positions[ref.toNat]?

/-- The source that a reference is read from.  One that is neither in the cell nor in a slot
gets the next slot. -/
def sourceOf (d : Draft) (ref : Int) : Draft × Result Int :=
  match d.position? ref with
  | some position => (d, .ok position)
  | none =>
    match d.slotOf[ref]? with
    | some slot => (d, .ok (Ref.input slot))
    | none =>
      let slot := d.slotOf.size
      let d := { d with slotOf := d.slotOf.insert ref slot }
      match Runs.append d.cell.slots ref with
      | .error e => (d, .error e)
      | .ok slots => ({ d with cell := { d.cell with slots } }, .ok (Ref.input slot))

/-- The sources that references are read from, in runs of their own. -/
def sourcesOf : Draft → Array Run → List Int → Draft × Result (Array Run)
  | d, sources, [] => (d, .ok sources)
  | d, sources, ref :: refs =>
    match d.sourceOf ref with
    | (d, .error e) => (d, .error e)
    | (d, .ok source) =>
      match Runs.append sources source with
      | .error e => (d, .error e)
      | .ok sources => sourcesOf d sources refs

/-- The draft with the neuron `index` at the next local position, its weights being copied and
its sources known. -/
def place (d : Draft) (index : Nat) (n : Neuron) (sources : Array Run) : Draft × Result Unit :=
  let c := { d.cell with
    sourceRunCounts := d.cell.sourceRunCounts.push sources.size
    sourceRuns := d.cell.sourceRuns ++ sources
    activations := d.cell.activations.push n.activation }
  match Runs.append c.outputs index with
  | .error e => ({ d with cell := c }, .error e)
  | .ok outputs =>
    ({ d with
        cell := { c with outputs }
        positions := d.positions.insert index d.cell.neuronCount }, .ok ())

/-- Takes the neuron `index` into the cell, at the next local position. -/
def add (d : Draft) (index : Nat) : Draft × Result Unit :=
  match d.examine index with
  | .error e => (d, .error e)
  | .ok n =>
    match (d.copyWeights n).sourcesOf #[] n.neuron.references with
    | (d, .error e) => (d, .error e)
    | (d, .ok sources) => d.place index n.neuron sources

end Draft

end NeuralPlan
