import NeuralPlan.Initializer
import NeuralPlan.Net.Settings

/-!
# Dense nets

A dense net has layers.  Each neuron of the first layer reads every external input, and each
neuron of a later layer every neuron of the layer before; the last layer is the output.  The
weight table holds, neuron after neuron, the weights in order of the inputs, the bias and the
memory filter.

## Main definitions

* `Dense.checkSizes`, `Dense.checkChoices`, `Dense.checkTotal` — which layers can be generated.
* `Dense.addNeuron`, `Dense.addLayers` — one more neuron, and all layers.
* `Net.dense` — the dense net of a list of layer sizes.
-/

set_option relaxedAutoImplicit false
set_option autoImplicit false

namespace NeuralPlan

namespace Dense

/-! ## Checks -/

/-- The size of the last layer, which has to agree with the requested number of outputs. -/
def outputNeurons (layers : List Nat) (requested : Option Nat) : Result Nat :=
  match layers.getLast?, requested with
  | none, _ => fail (.invalidState .noLayers)
  | some last, none => .ok last
  | some last, some requested =>
    if last = requested then .ok last
    else fail (.invalidState (.outputMismatch requested last))

/-- Fails if there is an empty layer. -/
def checkSizes (layers : List Nat) : Result Unit :=
  match layers.findIdx? (· == 0) with
  | some layer => fail (.invalidState (.emptyLayer layer))
  | none => .ok ()

/-- Fails unless every layer has activations to choose from. -/
def checkChoices (layers : List Nat) : Option (Array (Array Activation)) → Result Unit
  | none => .ok ()
  | some choices =>
    if choices.size ≠ layers.length then
      fail (.invalidState (.choiceCount choices.size layers.length))
    else match choices.findIdx? Array.isEmpty with
      | some layer => fail (.invalidState (.emptyChoice layer))
      | none => .ok ()

/-- The bytes of a neuron in the list of neurons, without its runs. -/
def neuronBytes : Nat := 72

/-- Fails if the neurons cannot be counted, or their list not be held. -/
def checkTotal (layers : List Nat) : Result Unit := do
  let total ← Word.unsigned (Word.total layers)
  if Word.signedLimit ≤ total * neuronBytes then stop .overflow

/-! ## Layers -/

/-- The net so far: its neurons and weights, with the state of the initializer and of the
stream that activations are chosen from. -/
structure Growth (σ : Type) where
  neurons : Array Neuron
  weights : Array Float
  initializer : σ
  stream : Random.Stream

variable {σ : Type} [Initializer σ]

/-- Weights for one neuron, written at the end of the table. -/
def addWeights (f : Activation) : Nat → Growth σ → Result (Growth σ)
  | 0, g => .ok g
  | count + 1, g => do
    let (weight, initializer) ← Initializer.weightFor g.initializer f
    addWeights f count { g with weights := g.weights.push weight, initializer }

/-- The run over the sources of a layer: the external inputs before the first layer, and the
neurons from `start` on before any other. -/
def sourceRun (start : Option Nat) (count : Nat) : Result Run :=
  match start with
  | none => Run.inputs 0 count
  | some start => .ok (Run.neurons start count)

/-- A neuron that reads `count` sources, with an activation from the choices. -/
def addNeuron (choices : Array Activation) (start : Option Nat) (count : Nat) (g : Growth σ) :
    Result (Activation × Growth σ) := do
  let (chosen, stream) := Random.choose choices g.stream
  let activation := chosen.getD default
  let first := g.weights.size
  let g ← addWeights activation count { g with stream }
  let (bias, initializer) ← Initializer.bias g.initializer
  let (memoryFilter, initializer) ← Initializer.memoryFilter initializer
  let inputs ← sourceRun start count
  let neuron := {
    activation
    bias := g.weights.size
    memoryFilter := g.weights.size + 1
    inputs := if count = 0 then #[] else #[inputs]
    weights := if count = 0 then #[] else #[⟨Word.toSigned first, count⟩] }
  return (activation, { g with
    neurons := g.neurons.push neuron
    weights := (g.weights.push bias).push memoryFilter
    initializer })

/-- A number of neurons of one layer, and the greatest range of their activations. -/
def addNeurons (choices : Array Activation) (start : Option Nat) (count : Nat) :
    Nat → Float → Growth σ → Result (Float × Growth σ)
  | 0, range, g => .ok (range, g)
  | neurons + 1, range, g => do
    let (activation, g) ← addNeuron choices start count g
    let range := if range < activation.range then activation.range else range
    addNeurons choices start count neurons range g

/-- The layers from one on.  `start` and `count` say where the sources of the next layer are,
and `range` how great they are. -/
def addLayers (start : Option Nat) (count : Nat) (range : Float) (g : Growth σ) :
    List (Nat × Array Activation) → Result (Growth σ)
  | [] => .ok g
  | (size, choices) :: layers => do
    let first := g.neurons.size
    let fitted := { g with initializer := Initializer.expect g.initializer count range }
    let (range, g) ← addNeurons choices start count size 0.0 fitted
    addLayers (some first) size range g layers

/-- The choices of each layer: all activations where none are given. -/
def withChoices (layers : List Nat) : Option (Array (Array Activation)) →
    List (Nat × Array Activation)
  | none => layers.map fun size => (size, Activation.all)
  | some choices => layers.zip choices.toList

end Dense

/-- The dense net of a list of layer sizes, with the values of an initializer; the activations
are chosen from a stream of their own.  The answer has the last state of the initializer. -/
def Net.dense {σ : Type} [Initializer σ] (s : NetSettings) (layers : List Nat) (initializer : σ)
    (stream : Random.Stream) : Result (Net × σ) :=
  match s.inputSize, s.expectedRange with
  | some inputSize, some expectedRange => do
    let outputNeurons ← Dense.outputNeurons layers s.outputNeurons
    Dense.checkSizes layers
    Dense.checkChoices layers s.choices
    Dense.checkTotal layers
    let grown ← Dense.addLayers none inputSize expectedRange ⟨#[], #[], initializer, stream⟩
      (Dense.withChoices layers s.choices)
    return ({
      inputSize
      outputNeurons
      expectedRange
      neurons := grown.neurons
      weights := grown.weights }, grown.initializer)
  | _, _ => fail (.missing s.missingForDense)

/-- The dense net of a seed, which both its activations and its scaled random weights are drawn
from. -/
def Net.denseOfSeed (s : NetSettings) (layers : List Nat) (seed : Nat) : Result Net := do
  let (net, _) ← Net.dense s layers (Scaled.ofSeed seed) (Random.Stream.ofSeed seed)
  return net

end NeuralPlan
