import NeuralPlan.Run
import NeuralPlan.Activation

/-!
# Nets

A net is a list of neurons over one table of weights.  A neuron reads external inputs and
neurons through references, and names by position in the table one weight per reference, a
bias and a memory filter.

## Main definitions

* `Neuron`, `Net` — the data, which need not be consistent.
* `Neuron.references`, `Neuron.neuronInputs` — what a neuron reads, one entry per reference.
* `Neuron.cost` — the bytes by which a cell may grow when it takes the neuron in.
* `blend` — how a fresh value and the previous one make the new value of a neuron.
-/

set_option relaxedAutoImplicit false
set_option autoImplicit false

namespace NeuralPlan

/-- A neuron.  `inputs` are references, `weights` positions in the weight table of the net. -/
structure Neuron where
  activation : Activation
  bias : Nat
  memoryFilter : Nat
  inputs : Array Run
  weights : Array Run
deriving DecidableEq, Inhabited

/-- A net.  Its last `outputNeurons` neurons are its output. -/
structure Net where
  inputSize : Nat
  outputNeurons : Nat
  expectedRange : Float
  neurons : Array Neuron
  weights : Array Float
deriving Inhabited

/-! ## Sizes in memory -/

/-- The bytes of a count, a position or a weight. -/
def wordBytes : Nat := 8

/-- The bytes of a run. -/
def runBytes : Nat := 16

/-- The bytes of an activation. -/
def activationBytes : Nat := 1

/-! ## Neurons -/

namespace Neuron

/-- The references of the neuron, in order. -/
def references (n : Neuron) : List Int := Runs.indices n.inputs.toList

/-- The neurons that the neuron reads, one entry per reference. -/
def neuronInputs (n : Neuron) : List Nat :=
  (n.references.filter fun ref => !Ref.isInput ref).map Int.toNat

/-- The first `count` references. -/
def referencesTake (n : Neuron) (count : Nat) : Result (List Int) :=
  Runs.take count n.inputs.toList

/-- The first `count` neurons that the neuron reads. -/
def neuronInputsTake (n : Neuron) (count : Nat) : Result (List Nat) := do
  let refs ← Runs.takeWhere (fun ref => !Ref.isInput ref) count n.inputs.toList
  return refs.map Int.toNat

/-- The first `count` positions of its weights. -/
def weightPositionsTake (n : Neuron) (count : Nat) : Result (List Nat) := do
  return (← Runs.take count n.weights.toList).map Word.toUnsigned

/-- The number of references, external inputs included. -/
def inputCount (n : Neuron) : Result Nat := Runs.size n.inputs.toList

/-- The cost of a neuron with `inputs` references: its weights, bias and memory filter, at
worst one run of references and one run of slots per reference, a run each for its output and
its weights, its four counters, and its activation. -/
def costOf (inputs : Nat) : Nat :=
  (inputs + 2) * wordBytes + (2 * inputs + 2) * runBytes + 4 * wordBytes + activationBytes

/-- The bytes by which a cell may grow when it takes the neuron in. -/
def cost (n : Neuron) : Result Nat := do
  Word.unsigned (costOf (← n.inputCount))

theorem costOf_eq (inputs : Nat) : costOf inputs = 40 * inputs + 81 := by
  simp only [costOf, wordBytes, runBytes, activationBytes]; omega

end Neuron

/-- The new value of a neuron: the share `filter` of the previous value, and the rest of the
fresh one. -/
def blend (filter previous fresh : Float) : Float := filter * previous + (1.0 - filter) * fresh

/-! ## Access -/

namespace Net

/-- The number of neurons. -/
def neuronCount (net : Net) : Nat := net.neurons.size

/-- The neuron at a position. -/
def neuron (net : Net) (index : Nat) : Result Neuron :=
  if h : index < net.neurons.size then .ok net.neurons[index]
  else fail (.outOfRange .neuron index net.neurons.size)

/-- The weight at a position of the table; `kind` says what it is looked up as. -/
def weightAs (net : Net) (kind : IndexKind) (index : Nat) : Result Float :=
  if h : index < net.weights.size then .ok net.weights[index]
  else fail (.outOfRange kind index net.weights.size)

/-- The weight at a position of the table. -/
def weight (net : Net) (index : Nat) : Result Float := net.weightAs .weight index

end Net

end NeuralPlan
