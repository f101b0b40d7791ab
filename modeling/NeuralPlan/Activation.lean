/-!
# Activations

An activation turns the weighted input sum of a neuron into its fresh value.

## Main definitions

* `Activation` and `Activation.all` — the six activations, in their fixed order.
* `Activation.apply` — the value at a sum.
* `Activation.range` — the amplitude that weights of later neurons are fitted to.
-/

set_option relaxedAutoImplicit false
set_option autoImplicit false

namespace NeuralPlan

/-- The functions that a neuron may apply to its weighted input sum. -/
inductive Activation
  | identity
  | sigmoid
  | tanh
  | elu
  | selu
  | relu
deriving DecidableEq, Inhabited

namespace Activation

/-- Every activation, in the order in which they are drawn. -/
def all : Array Activation := #[identity, sigmoid, tanh, elu, selu, relu]

/-- The name of an activation. -/
def label : Activation → String
  | identity => "Identity"
  | sigmoid => "Sigmoid"
  | tanh => "Tanh"
  | elu => "Elu"
  | selu => "Selu"
  | relu => "Relu"

/-- The activation of a name. -/
def ofLabel? (name : String) : Option Activation := all.find? fun f => f.label == name

/-- The scale `λ` of the self-normalising linear unit. -/
def seluScale : Float := 1.0507009873554805

/-- The saturation `α` of the self-normalising linear unit. -/
def seluAlpha : Float := 1.6732632423543772

/-- The saturation `α` of the exponential linear unit. -/
def eluAlpha : Float := 1.0

/-- The value of the activation at `x`.  The rectifier answers all that is not above zero, a NaN
and minus zero included, with plus zero. -/
def apply : Activation → Float → Float
  | identity, x => x
  | sigmoid, x => 1.0 / (1.0 + Float.exp (-x))
  | tanh, x => Float.tanh x
  | elu, x => if x ≤ 0.0 then eluAlpha * (Float.exp x - 1.0) else x
  | selu, x =>
    if x ≤ 0.0 then seluScale * seluAlpha * (Float.exp x - 1.0) else seluScale * x
  | relu, x => if 0.0 < x then x else 0.0

/-- The typical absolute value of the activation. -/
def range : Activation → Float
  | sigmoid | tanh => 1.0
  | identity | elu | selu | relu => 50.0

/-- Whether the activation saturates, so that weights are fitted to its positive half. -/
def isRectifier : Activation → Bool
  | relu | elu => true
  | identity | sigmoid | tanh | selu => false

/-- A name determines its activation. -/
theorem ofLabel?_label (f : Activation) : ofLabel? f.label = some f := by
  cases f <;> decide

end Activation

end NeuralPlan
