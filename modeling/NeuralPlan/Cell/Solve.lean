import NeuralPlan.Cell

/-!
# Solving a cell

A cell is solved on an external input, the present values of all neurons, and a flag per neuron
that tells whether its value may be read.  First the slots are filled; then the neurons are
solved in order of their local positions.

## Main definitions

* `Cell.fill` — the values of the slots.
* `Cell.checkTables` — every table has one entry per local position.
* `Cell.solve` — the new values of the neurons, in order of their local positions.
-/

set_option relaxedAutoImplicit false
set_option autoImplicit false

namespace NeuralPlan

/-- What cells are solved on: the external input, the present values of the neurons, and which
neurons are committed. -/
structure Surroundings where
  input : Array Float
  values : Array Float
  committed : Array Bool

namespace Surroundings

/-- The value of an external input. -/
def inputAt (env : Surroundings) (index : Nat) : Result Float :=
  if h : index < env.input.size then .ok env.input[index]
  else fail (.outOfRange .input index env.input.size)

/-- The value of a committed neuron. -/
def committedAt (env : Surroundings) (index : Nat) : Result Float :=
  let limit := min env.values.size env.committed.size
  match env.values[index]?, env.committed[index]? with
  | some value, some true => .ok value
  | _, _ => fail (.outOfRange .committedNeuron index limit)

/-- The value that a reference names. -/
def valueOf (env : Surroundings) (ref : Int) : Result Float :=
  if Ref.isInput ref then do env.inputAt (← Ref.toInput ref)
  else env.committedAt ref.toNat

end Surroundings

/-- What the tables of a cell say of one local position. -/
structure Entry where
  activation : Activation
  bias : Nat
  memoryFilter : Nat
  weightRunCount : Nat
  sourceRunCount : Nat

/-- How far a cell is solved: the entries of the positions ahead, how many runs the solved ones
have used, and their values. -/
structure Progress where
  ahead : List Entry
  weightRunStart : Nat
  sourceRunStart : Nat
  results : Array Float

namespace Cell

/-- The values of the slots. -/
def fill (c : Cell) (env : Surroundings) : Result (Array Float) :=
  Runs.foldlM (fun filled ref => do return filled.push (← env.valueOf ref)) #[] c.slots.toList

/-- Fails unless a table has one entry per local position. -/
def checkTable (c : Cell) (table : Table) (entries : Nat) : Result Unit :=
  if entries = c.neuronCount then .ok ()
  else fail (.inconsistent (.tableLength c.neuronCount entries table))

/-- Fails at the first table that has not one entry per local position. -/
def checkTables (c : Cell) : Result Unit := do
  let outputs ← Runs.size c.outputs.toList
  c.checkTable .output outputs
  c.checkTable .bias c.biases.size
  c.checkTable .memoryFilter c.memoryFilters.size
  c.checkTable .weightRuns c.weightRunCounts.size
  c.checkTable .inputRuns c.sourceRunCounts.size

/-- The entries of tables of one length, position by position. -/
def zipEntries :
    List Activation → List Nat → List Nat → List Nat → List Nat → List Entry
  | f :: fs, bias :: biases, filter :: filters, weightRuns :: ws, sourceRuns :: ss =>
    ⟨f, bias, filter, weightRuns, sourceRuns⟩ :: zipEntries fs biases filters ws ss
  | _, _, _, _, _ => []

/-- What the tables say of the local positions. -/
def entries (c : Cell) : List Entry :=
  zipEntries c.activations.toList c.biases.toList c.memoryFilters.toList
    c.weightRunCounts.toList c.sourceRunCounts.toList

/-- The `count` runs from `start` on. -/
def runsFrom (runs : Array Run) (start count : Nat) : Result (List Run) :=
  if Word.limit ≤ start + count then fail (.outOfRange .run start runs.size)
  else if runs.size < start + count then fail (.outOfRange .run (start + count - 1) runs.size)
  else .ok (runs.extract start (start + count)).toList

/-- The weight at a position of the cell's table; `kind` says what it is looked up as. -/
def weightAs (c : Cell) (kind : IndexKind) (index : Nat) : Result Float :=
  if h : index < c.weights.size then .ok c.weights[index]
  else fail (.outOfRange kind index c.weights.size)

/-- The value of a source: of a slot, or of a local position that is solved already. -/
def sourceValue (filled results : Array Float) (source : Int) : Result Float :=
  if Ref.isInput source then do
    let slot ← Ref.toInput source
    if h : slot < filled.size then return filled[slot]
    else fail (.outOfRange .inputSlot slot filled.size)
  else
    if h : source.toNat < results.size then .ok results[source.toNat]
    else fail (.outOfRange .localNeuron source.toNat results.size)

/-- One more product of a weighted sum. -/
def addProduct (c : Cell) (filled results : Array Float) (sum : Float) (weight source : Int) :
    Result Float := do
  let weight ← c.weightAs .weight (Word.toUnsigned weight)
  let value ← sourceValue filled results source
  return sum + weight * value

/-- The weighted sum over weights and sources side by side, which have to be equally many. -/
def weightedSum (c : Cell) (filled results : Array Float) (index : Nat)
    (weights sources : List Run) : Result Float := do
  let weightCount ← Runs.size weights
  let sourceCount ← Runs.size sources
  if weightCount = sourceCount then
    Runs.zipFoldlM (c.addProduct filled results) 0.0 weights sources
  else fail (.inconsistent (.weightCount index sourceCount weightCount))

/-- The new value of the neuron `index`, from the entry of its local position. -/
def value (c : Cell) (env : Surroundings) (filled results : Array Float) (index : Nat)
    (entry : Entry) (weights sources : List Run) : Result Float := do
  let sum ← c.weightedSum filled results index weights sources
  let bias ← c.weightAs .bias entry.bias
  let filter ← c.weightAs .memoryFilter entry.memoryFilter
  if h : index < env.values.size then
    return blend filter env.values[index] (entry.activation.apply (sum + bias))
  else fail (.outOfRange .neuron index env.values.size)

/-- Solves the next local position, whose neuron is `ref`.  The tables are read without a check
here. -/
def solveNext (c : Cell) (env : Surroundings) (filled : Array Float) (p : Progress) (ref : Int) :
    Result Progress :=
  match p.ahead with
  | [] => stop .missingEntry
  | entry :: ahead => do
    let weights ← runsFrom c.weightRuns p.weightRunStart entry.weightRunCount
    let sources ← runsFrom c.sourceRuns p.sourceRunStart entry.sourceRunCount
    let value ← c.value env filled p.results (Word.toUnsigned ref) entry weights sources
    return {
      ahead
      weightRunStart := p.weightRunStart + entry.weightRunCount
      sourceRunStart := p.sourceRunStart + entry.sourceRunCount
      results := p.results.push value }

/-- The new values of the cell's neurons, in order of their local positions. -/
def solve (c : Cell) (env : Surroundings) : Result (Array Float) := do
  let filled ← c.fill env
  c.checkTables
  let solved ← Runs.foldlM (c.solveNext env filled) ⟨c.entries, 0, 0, #[]⟩ c.outputs.toList
  return solved.results

end Cell

end NeuralPlan
