import NeuralPlan.Activation
import NeuralPlan.Random.Draw

/-!
# Initial weights

A dense net takes its weights, biases and memory filters from an *initializer*, which is told
before each layer how many inputs its neurons have and how great these are expected to be.

## Main definitions

* `Initializer` — what a source of initial values has to offer.
* `FanIn` — the expectation, made such that a weighted sum of so many inputs stays finite.
* `Scaled` — random weights, scaled to the number and the size of the inputs.
-/

set_option relaxedAutoImplicit false
set_option autoImplicit false

namespace NeuralPlan

/-- A source of initial values with states of type `σ`.  Each draw answers with a value and the
next state. -/
class Initializer (σ : Type) where
  /-- Fits the next values to a number of inputs and to their greatest absolute value. -/
  expect : σ → Nat → Float → σ
  /-- A weight for a neuron with the activation. -/
  weightFor : σ → Activation → Result (Float × σ)
  /-- A bias. -/
  bias : σ → Result (Float × σ)
  /-- A memory filter. -/
  memoryFilter : σ → Result (Float × σ)

/-! ## Expectations -/

/-- The least amplitude, `2 ^ (-52)`. -/
def leastAmplitude : Float := Float.ofBits 0x3cb0000000000000

/-- The greatest finite double. -/
def greatestFloat : Float := Float.ofBits 0x7fefffffffffffff

/-- The number of inputs of a neuron, and the greatest absolute value that they have. -/
structure FanIn where
  number : Nat
  maximum : Float

namespace FanIn

/-- The expectation for `number` inputs of values up to `maximum`: at least one input, a
maximum above zero, and their product finite. -/
def of (number : Nat) (maximum : Float) : FanIn :=
  let number := max number 1
  let maximum := maximum.abs
  if maximum == 0.0 || maximum.isNaN then ⟨number, leastAmplitude⟩
  else if (Float.ofNat number * maximum).isFinite then ⟨number, maximum⟩
  else ⟨number, greatestFloat / Float.ofNat number⟩

/-- The expectation where none is given: one input from an unbounded activation. -/
def standard : FanIn := of 1 Activation.identity.range

/-- The amplitude of the weights for an activation: `√2` times as wide for a rectifier, as half
of its values are cut off. -/
def amplitude (fanIn : FanIn) (f : Activation) : Float :=
  let spread := if f.isRectifier then 2.0 else 1.0
  let wanted := (spread / Float.ofNat fanIn.number).sqrt / fanIn.maximum
  if leastAmplitude ≤ wanted then wanted else leastAmplitude

end FanIn

/-- A weight moved to the nearest one in `[-1, 1]`; a NaN stays. -/
def limitWeight (weight : Float) : Float :=
  if weight < -1.0 then -1.0 else if weight > 1.0 then 1.0 else weight

/-- A memory filter moved to the nearest one in `[0, 1]`; a NaN stays. -/
def limitFilter (filter : Float) : Float :=
  if filter < 0.0 then 0.0 else if filter > 1.0 then 1.0 else filter

/-! ## Scaled random weights -/

/-- An initializer that draws from a random stream: weights and biases of an amplitude that fits
the expectation, and memory filters from a span. -/
structure Scaled where
  stream : Random.Stream
  memoryLow : Float
  memoryHigh : Float
  fanIn : FanIn

namespace Scaled

/-- The initializer of a seed, with memory filters between two bounds. -/
def between (seed : Nat) (a b : Float) : Scaled :=
  let (low, high) := if a ≤ b then (a, b) else (b, a)
  ⟨.ofSeed seed, limitFilter low, limitFilter high, .standard⟩

/-- The initializer of a seed, with memory filters of all sizes. -/
def ofSeed (seed : Nat) : Scaled := between seed 0.0 1.0

/-- A value that fits the expectation. -/
def nextFor (s : Scaled) (f : Activation) : Result (Float × Scaled) := do
  let amplitude := s.fanIn.amplitude f
  let (weight, stream) ← Random.between (-amplitude) amplitude s.stream
  return (limitWeight weight, { s with stream })

/-- A memory filter between the bounds. -/
def nextMemoryFilter (s : Scaled) : Result (Float × Scaled) := do
  let (filter, stream) ← Random.between s.memoryLow s.memoryHigh s.stream
  return (filter, { s with stream })

instance : Initializer Scaled where
  expect s number maximum := { s with fanIn := .of number maximum }
  weightFor := nextFor
  bias s := nextFor s .identity
  memoryFilter := nextMemoryFilter

end Scaled

end NeuralPlan
