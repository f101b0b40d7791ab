import NeuralPlan.Net

/-!
# Cells

A cell is a group of neurons made ready to be solved on its own.  Its neurons stand at local
positions `0`, `1`, …; it holds copies of their weights, and names what it reads from outside in
one list, whose entries it calls slots.  An input of a neuron is then a *source*: from `0` up an
earlier local position, and below zero a slot, counted like an external input.

A cell may come from outside, so nothing is assumed of its tables.

## Main definitions

* `Cell` — the tables, of which five have one entry per local position.
* `Cell.sizeBytes` — its size in memory.
-/

set_option relaxedAutoImplicit false
set_option autoImplicit false

namespace NeuralPlan

/-- A compiled group of neurons. -/
structure Cell where
  /-- The neurons at the local positions, in order. -/
  outputs : Array Run
  /-- The external inputs and the committed neurons that the slots hold, in order. -/
  slots : Array Run
  activations : Array Activation
  weights : Array Float
  /-- Runs over `weights`; so many as `weightRunCounts` says belong to each local position. -/
  weightRuns : Array Run
  weightRunCounts : Array Nat
  /-- Positions in `weights`. -/
  biases : Array Nat
  memoryFilters : Array Nat
  /-- The sources; so many runs as `sourceRunCounts` says belong to each local position. -/
  sourceRuns : Array Run
  sourceRunCounts : Array Nat
deriving Inhabited

namespace Cell

/-- The cell without neurons. -/
def empty : Cell where
  outputs := #[]
  slots := #[]
  activations := #[]
  weights := #[]
  weightRuns := #[]
  weightRunCounts := #[]
  biases := #[]
  memoryFilters := #[]
  sourceRuns := #[]
  sourceRunCounts := #[]

/-- The number of local positions. -/
def neuronCount (c : Cell) : Nat := c.activations.size

/-- Whether the cell has no neurons. -/
def isEmpty (c : Cell) : Bool := c.activations.isEmpty

/-- The number of slots. -/
def slotCount (c : Cell) : Result Nat := Runs.size c.slots.toList

/-- The first `count` neurons in order of their local positions. -/
def outputsTake (c : Cell) (count : Nat) : Result (List Nat) := do
  return (← Runs.take count c.outputs.toList).map Word.toUnsigned

/-- The bytes of a cell without its tables. -/
def emptyBytes : Nat := 240

/-- The bytes of a cell with its tables. -/
def sizeBytes (c : Cell) : Nat :=
  emptyBytes
    + (c.outputs.size + c.slots.size + c.weightRuns.size + c.sourceRuns.size) * runBytes
    + c.activations.size * activationBytes
    + c.weights.size * wordBytes
    + (c.weightRunCounts.size + c.biases.size + c.memoryFilters.size + c.sourceRunCounts.size)
      * wordBytes

theorem sizeBytes_empty : empty.sizeBytes = emptyBytes := rfl

end Cell

end NeuralPlan
