/-!
# Failures

Every operation of the library answers with a `Result`.  It fails in one of two ways:

* with an `Error`, the report of a condition that the operation checks; its wording is
  `Error.message`;
* with a `Fault`, the stop of an arithmetic or an assumption that no report covers.

## Main definitions

* `Error`, with its causes `IndexKind`, `Misuse`, `Defect` and `Setting`.
* `Error.message` — the one place where reports get their words.
* `Failure`, `Result` — what operations fail with and answer with.
* `checkIndex` — the bounds check of every index.
-/

set_option relaxedAutoImplicit false
set_option autoImplicit false

namespace NeuralPlan

/-! ## Causes -/

/-- What an index that is out of range was meant to name. -/
inductive IndexKind
  | neuron
  | committedNeuron
  | localNeuron
  | input
  | inputSlot
  | weight
  | bias
  | biasWeight
  | memoryFilter
  | memoryFilterWeight
  | run
  | subset
  | row
  | column
  | cell
deriving DecidableEq

/-- The name of an index kind in reports. -/
def IndexKind.label : IndexKind → String
  | neuron => "neuron"
  | committedNeuron => "committed neuron"
  | localNeuron => "local neuron"
  | input => "input"
  | inputSlot => "input slot"
  | weight => "weight"
  | bias => "bias"
  | biasWeight => "bias weight"
  | memoryFilter => "memory filter"
  | memoryFilterWeight => "memory filter weight"
  | run => "synapse"
  | subset => "subset"
  | row => "row"
  | column => "column"
  | cell => "partial solution"

/-- An operation was called out of order, or with settings that contradict each other. -/
inductive Misuse
  /-- The neuron is already in the cell under construction. -/
  | alreadyPlaced (neuron : Nat)
  /-- The neuron has more neuron references than a frontier counts. -/
  | tooManyInputs (neuron : Nat)
  /-- A collection was asked for while the last one still waits for confirmation. -/
  | subsetPending
  /-- A worker of a collection stopped with a fault. -/
  | workerFailed
  /-- The neuron to confirm or to release is not reserved. -/
  | notReserved (neuron : Nat)
  /-- The neuron to confirm is not the first of the subset. -/
  | notFirst (neuron : Nat) (first : Option Nat)
  /-- No layers were given. -/
  | noLayers
  /-- The requested number of output neurons is not the size of the last layer. -/
  | outputMismatch (requested last : Nat)
  /-- A layer has no neurons. -/
  | emptyLayer (layer : Nat)
  /-- The choices of activations are not one per layer. -/
  | choiceCount (choices layers : Nat)
  /-- A layer is left no activation to choose. -/
  | emptyChoice (layer : Nat)
  /-- No thread is allowed. -/
  | noThreads
deriving DecidableEq

/-- The five tables of a cell that have one entry per neuron. -/
inductive Table
  | output
  | bias
  | memoryFilter
  | weightRuns
  | inputRuns
deriving DecidableEq

/-- The name of a table in reports. -/
def Table.label : Table → String
  | output => "output"
  | bias => "bias"
  | memoryFilter => "memory filter"
  | weightRuns => "weight synapse number"
  | inputRuns => "index synapse number"

/-- A net, a cell or a plan contradicts itself. -/
inductive Defect
  /-- A neuron has not as many weights as inputs. -/
  | weightCount (neuron inputs weights : Nat)
  /-- A neuron reads a neuron that is neither committed nor in the cell. -/
  | unresolved (input neuron : Nat)
  /-- No neuron can be solved next although some are left. -/
  | stalled (iteration unprocessed : Nat)
  /-- A table of a cell has not one entry per neuron. -/
  | tableLength (neurons entries : Nat) (table : Table)
  /-- The column numbers of a plan do not add up to its cells. -/
  | gridMismatch (cols : List Nat) (cells : Nat)
  /-- No cell of a plan answers for a neuron. -/
  | unsolved (neuron : Nat)
deriving DecidableEq

/-- A setting that an operation may require. -/
inductive Setting
  | inputSize
  | outputNeuronNumber
  | expectedInputRange
  | neuronArray
  | weightTable
  | maxSolveThreads
deriving DecidableEq

/-- The name of a setting. -/
def Setting.label : Setting → String
  | inputSize => "input_size"
  | outputNeuronNumber => "output_neuron_number"
  | expectedInputRange => "expected_input_range"
  | neuronArray => "neuron_array"
  | weightTable => "weight_table"
  | maxSolveThreads => "max_solve_threads"

/-! ## Errors and faults -/

/-- A checked condition that ends an operation. -/
inductive Error
  /-- An index is not below the length it is held against. -/
  | outOfRange (kind : IndexKind) (index length : Nat)
  /-- An operation came at the wrong time or with the wrong settings. -/
  | invalidState (misuse : Misuse)
  /-- The data contradict each other. -/
  | inconsistent (defect : Defect)
  /-- A memory budget does not hold the next neuron alone. -/
  | exhausted (required budget : Nat)
  /-- A list of values has the wrong length. -/
  | lengthMismatch (expected actual : Nat)
  /-- Required settings were not given. -/
  | missing (settings : List Setting)
deriving DecidableEq

/-- A stop that no report covers. -/
inductive Fault
  /-- A result does not fit its word. -/
  | overflow
  /-- A reference to a neuron was used as a reference to an input. -/
  | notAnInput
  /-- A table was read behind its last entry. -/
  | missingEntry
  /-- A random value was asked for from a span without values, or of infinite width. -/
  | badSpan
  /-- A row would commit no neuron, so that building rows would never end. -/
  | endless
deriving DecidableEq

/-- Why an operation has no value. -/
inductive Failure
  | error (e : Error)
  | fault (f : Fault)
deriving DecidableEq

/-- The answer of an operation that may fail. -/
abbrev Result (α : Type) := Except Failure α

/-- A failure with a report. -/
def fail {α : Type} (e : Error) : Result α := .error (.error e)

/-- A failure without a report. -/
def stop {α : Type} (f : Fault) : Result α := .error (.fault f)

/-- Fails unless `index` is below `length`. -/
def checkIndex (kind : IndexKind) (index length : Nat) : Result Unit :=
  if index < length then .ok () else fail (.outOfRange kind index length)

/-- A checked index succeeds exactly below the length. -/
theorem checkIndex_eq_ok_iff {kind : IndexKind} {index length : Nat} :
    checkIndex kind index length = .ok () ↔ index < length := by
  unfold checkIndex fail; split <;> simp_all

/-! ## Wording -/

/-- An optional index as text. -/
def optionText : Option Nat → String
  | none => "None"
  | some k => s!"Some({k})"

/-- A list of numbers as text. -/
def listText (ns : List Nat) : String := "[" ++ ", ".intercalate (ns.map toString) ++ "]"

/-- The text of a misuse. -/
def Misuse.message : Misuse → String
  | alreadyPlaced i => s!"neuron {i} is already part of the partial solution"
  | tooManyInputs i => s!"neuron {i} has too many inputs to route"
  | subsetPending => "the previous subset is not confirmed"
  | workerFailed => "subset collection worker panicked"
  | notReserved i => s!"neuron {i} is not reserved"
  | notFirst i first =>
    s!"neuron {i} is not the first element of the subset (first is " ++ optionText first ++ ")"
  | noLayers => "dense layers need at least one layer"
  | outputMismatch requested last =>
    s!"output neuron number {requested} does not match the last layer size {last}"
  | emptyLayer layer => s!"layer {layer} is empty"
  | choiceCount choices layers =>
    s!"{choices} transfer function filters given for {layers} layers"
  | emptyChoice layer => s!"layer {layer} allows no transfer function"
  | noThreads => "max_solve_threads must be at least 1"

/-- The text of a defect. -/
def Defect.message : Defect → String
  | weightCount i inputs weights => s!"neuron {i} has {inputs} inputs but {weights} weights"
  | unresolved input i =>
    s!"input {input} of neuron {i} is neither committed nor part of the partial solution"
  | stalled iteration unprocessed =>
    s!"no solvable neuron left after iteration {iteration} with {unprocessed} neurons unprocessed"
  | tableLength neurons entries table =>
    s!"partial solution has {neurons} neurons but {entries} " ++ table.label ++ " entries"
  | gridMismatch cols cells =>
    "columns " ++ listText cols ++ s!" do not cover {cells} partial solutions"
  | unsolved i => s!"neuron {i} is not solved by any partial solution"

/-- The text of an error. -/
def Error.message : Error → String
  | outOfRange kind index length =>
    kind.label ++ s!" index {index} is out of range (valid range is 0..{length})"
  | invalidState misuse => "Invalid state: " ++ misuse.message
  | inconsistent defect => "Inconsistent graph state: " ++ defect.message
  | exhausted required budget =>
    s!"Memory budget of {budget} bytes cannot hold a single neuron requiring {required} bytes"
  | lengthMismatch expected actual => s!"Expected {expected} input values, received {actual}"
  | missing settings =>
    "Missing required configuration: " ++ ", ".intercalate (settings.map Setting.label)

end NeuralPlan
