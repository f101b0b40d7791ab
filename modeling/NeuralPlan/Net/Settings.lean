import NeuralPlan.Net

/-!
# Settings of a net

A net is put together from given parts or generated as dense layers.  Both take what they need
from the same settings.

## Main definitions

* `NetSettings`, with `missingForParts` and `missingForDense` — the settings, and which of the
  required ones are not given.
* `Net.ofParts` — the net of given neurons and weights.
-/

set_option relaxedAutoImplicit false
set_option autoImplicit false

namespace NeuralPlan

/-- What may be said of a net before it is made. -/
structure NetSettings where
  inputSize : Option Nat
  outputNeurons : Option Nat
  /-- The absolute value of an average input, which initial weights are fitted to. -/
  expectedRange : Option Float
  neurons : Option (Array Neuron)
  weights : Option (Array Float)
  /-- The activations that each layer of a dense net may choose from. -/
  choices : Option (Array (Array Activation))
  seed : Option Nat

namespace NetSettings

/-- No settings. -/
def unset : NetSettings := ⟨none, none, none, none, none, none, none⟩

/-- The names of those settings that are absent. -/
def absent (settings : List (Setting × Bool)) : List Setting :=
  (settings.filter fun setting => !setting.2).map Prod.fst

/-- What is missing to put a net together. -/
def missingForParts (s : NetSettings) : List Setting :=
  absent [(.inputSize, s.inputSize.isSome), (.outputNeuronNumber, s.outputNeurons.isSome),
    (.neuronArray, s.neurons.isSome), (.weightTable, s.weights.isSome)]

/-- What is missing to generate a dense net. -/
def missingForDense (s : NetSettings) : List Setting :=
  absent [(.inputSize, s.inputSize.isSome), (.expectedInputRange, s.expectedRange.isSome)]

end NetSettings

/-- The net of given neurons and weights, whose consistency is not checked. -/
def Net.ofParts (s : NetSettings) : Result Net :=
  match s.inputSize, s.outputNeurons, s.neurons, s.weights with
  | some inputSize, some outputNeurons, some neurons, some weights => .ok {
      inputSize
      outputNeurons
      expectedRange := s.expectedRange.getD Activation.identity.range
      neurons
      weights }
  | _, _, _, _ => fail (.missing s.missingForParts)

end NeuralPlan
